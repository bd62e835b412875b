import BlockIR.Proofs.RoundTrip.Scanning

/-!
# Literals of numbers and strings

The decimal digits of a number are one literal of its value, with a sign before them or a `u` after them,
and the quoted form of a string is one literal of that string.
-/

namespace BlockIR

namespace Numeral

lemma extend?_eq {n : Nat} {cs : List Char} (h : ∀ c ∈ cs, c.isDigit) :
    extend? 10 n cs = some (Nat.ofDigitChars 10 cs n) := by
  induction cs generalizing n with
  | nil => rfl
  | cons c cs ih =>
    rw [List.forall_mem_cons] at h
    rw [extend?, digit?_of_isDigit h.1, Option.bind_some, ih h.2, Nat.ofDigitChars_cons, Nat.mul_comm n]

lemma value?_eq {cs : List Char} (hne : cs ≠ []) (h : ∀ c ∈ cs, c.isDigit) :
    value? 10 cs = some (Nat.ofDigitChars 10 cs 0) := by
  cases cs with
  | nil => exact absurd rfl hne
  | cons c cs => exact extend?_eq h

lemma isDigit_of_mem_toDigits (n : Nat) : ∀ c ∈ Nat.toDigits 10 n, c.isDigit :=
  fun _ hc => Nat.isDigit_of_mem_toDigits (by decide) (by decide) hc

lemma value?_toDigits (n : Nat) : value? 10 (Nat.toDigits 10 n) = some n := by
  rw [value?_eq Nat.toDigits_ne_nil (isDigit_of_mem_toDigits n), Nat.ofDigitChars_ten_toDigits]

end Numeral

namespace Token

/-- A minus sign or nothing. -/
def sign (negative : Bool) : List Char := if negative then ['-'] else []

/-- The first character of a number and the digits after it. -/
def StartsNumber (first : Char) (whole : List Char) : Prop :=
  (∀ c ∈ whole, c.isDigit) ∧ (first.isDigit ∨ first = '-' ∧ whole ≠ [])

lemma exists_startsNumber (negative : Bool) {ds : List Char} (hne : ds ≠ []) (hds : ∀ c ∈ ds, c.isDigit) :
    ∃ first whole, sign negative ++ ds = first :: whole ∧ StartsNumber first whole := by
  cases negative with
  | true => exact ⟨'-', ds, rfl, hds, .inr ⟨rfl, hne⟩⟩
  | false =>
    cases ds with
    | nil => exact absurd rfl hne
    | cons d ds =>
      rw [List.forall_mem_cons] at hds
      exact ⟨d, ds, rfl, hds.2, .inl hds.1⟩

section Numbers

variable {first : Char} {whole rest : List Char}

lemma isWordChar_of_isDigit {c : Char} (h : c.isDigit) : isWordChar c := by
  simp only [isWordChar, Char.isAlphanum, h, Bool.or_true, Bool.true_or]

lemma StartsNumber.not_layout (h : StartsNumber first whole) : isSpace first = false ∧ first ≠ '/' := by
  rcases h.2 with hdigit | ⟨rfl, -⟩
  · have hchar := isWordChar_of_isDigit hdigit
    exact ⟨isSpace_eq_false hchar, ne_of_isWordChar hchar (by decide)⟩
  · decide

lemma StartsNumber.scan_eq (h : StartsNumber first whole)
    (hrest : ∀ c ∈ rest.head?, c ≠ 'x' ∧ c ≠ 'b' ∧ c ≠ 'o') :
    scan first (whole ++ rest) = scanNumber first (whole ++ rest) := by
  obtain ⟨hwhole, hdigit | ⟨rfl, hne⟩⟩ := h
  · have hchar := isWordChar_of_isDigit hdigit
    have hscan : scan first (whole ++ rest) =
        if first = '0' then scanZero (whole ++ rest) else scanNumber first (whole ++ rest) := by
      simp only [scan, mark?_eq_none hchar, ne_of_isWordChar hchar (by decide : isWordChar '"' = false),
        ne_of_isWordChar hchar (by decide : isWordChar '-' = false), hdigit, if_false, if_true]
    rw [hscan]
    split
    · next hzero =>
      have hhead : ∀ c ∈ (whole ++ rest).head?, ¬ (c = 'x' ∨ c = 'b' ∨ c = 'o') := by
        intro c hc
        cases whole with
        | nil =>
          obtain ⟨hx, hb, ho⟩ := hrest c hc
          simp only [hx, hb, ho, or_self, not_false_eq_true]
        | cons d whole =>
          cases hc
          have hd : c.isDigit := hwhole c List.mem_cons_self
          rintro (rfl | rfl | rfl) <;> exact absurd hd (by decide)
      subst hzero
      cases hcs : whole ++ rest with
      | nil => rfl
      | cons c cs =>
        rw [hcs] at hhead
        rw [scanZero, if_neg (hhead c rfl)]
    · rfl
  · cases whole with
    | nil => exact absurd rfl hne
    | cons d whole =>
      have hd : d.isDigit := hwhole d List.mem_cons_self
      have harrow : d ≠ '>' := by
        rintro rfl
        exact absurd hd (by decide)
      show scanMinus (d :: (whole ++ rest)) = _
      unfold scanMinus
      split
      · next heq => exact absurd (List.head_eq_of_cons_eq heq) harrow
      · next heq =>
        cases heq
        rw [if_pos hd]
        rfl
      · next heq => cases heq

lemma takeWhile_isDigit_append (hwhole : ∀ c ∈ whole, c.isDigit)
    (hrest : ∀ c ∈ rest.head?, c.isDigit = false) : (whole ++ rest).takeWhile Char.isDigit = whole :=
  takeWhile_append_of_head hwhole hrest

lemma not_isDigit_of_breaks (h : breaks rest) : ∀ c ∈ rest.head?, c.isDigit = false := by
  intro c hc
  cases hdigit : c.isDigit with
  | false => rfl
  | true =>
    have hchar := isWordChar_of_isDigit hdigit
    rw [not_isWordChar_of_breaks h c hc] at hchar
    exact absurd hchar Bool.false_ne_true

lemma not_radixMark_of_breaks (h : breaks rest) : ∀ c ∈ rest.head?, c ≠ 'x' ∧ c ≠ 'b' ∧ c ≠ 'o' := by
  intro c hc
  have hchar := not_isWordChar_of_breaks h c hc
  refine ⟨?_, ?_, ?_⟩ <;> rintro rfl <;> exact absurd hchar (by decide)

lemma open_int {s : String} (hs : s.toList = first :: whole) (h : StartsNumber first whole) :
    Open s [.int s] := by
  obtain ⟨hspace, hslash⟩ := h.not_layout
  refine open_of_scan hs hspace hslash fun rest hrest => ?_
  rw [h.scan_eq (not_radixMark_of_breaks hrest), scanNumber,
    takeWhile_isDigit_append h.1 (not_isDigit_of_breaks hrest), List.drop_left, ← hs, String.ofList_toList]
  cases rest with
  | nil => rfl
  | cons c rest =>
    have hchar := not_isWordChar_of_breaks hrest c rfl
    have hdot : c ≠ '.' := by
      rintro rfl
      exact Bool.false_ne_true hrest
    dsimp only
    split
    · next heq => exact absurd (List.head_eq_of_cons_eq heq) hdot
    · next heq =>
      cases heq
      exact absurd hchar (by decide)
    · rfl

lemma closed_uint {s : String} (hs : s.toList = first :: (whole ++ ['u'])) (h : StartsNumber first whole) :
    Closed s [.uint s] := by
  obtain ⟨hspace, hslash⟩ := h.not_layout
  refine closed_of_scan hs hspace hslash fun rest => ?_
  have hmark : ∀ c ∈ ('u' :: rest).head?, c ≠ 'x' ∧ c ≠ 'b' ∧ c ≠ 'o' := by
    rintro c hc
    cases hc
    decide
  have hdigit : ∀ c ∈ ('u' :: rest).head?, c.isDigit = false := by
    rintro c hc
    cases hc
    rfl
  rw [List.append_assoc, List.singleton_append, h.scan_eq hmark, scanNumber,
    takeWhile_isDigit_append h.1 hdigit, List.drop_left]
  show (Token.uint (String.ofList (first :: (whole ++ ['u']))), whole ++ ['u']) = _
  rw [← hs, String.ofList_toList]

end Numbers

section Strings

lemma stringEnd_encode (n : Nat) (cs rest : List Char) :
    stringEnd n (Quoted.encode cs ++ '"' :: rest) = (true, n + (Quoted.encode cs).length + 1) := by
  induction cs generalizing n with
  | nil => rfl
  | cons c cs ih =>
    have hencode : Quoted.encode (c :: cs) = Quoted.encodeChar c ++ Quoted.encode cs := List.flatMap_cons
    rw [hencode, List.append_assoc, List.length_append, Quoted.encodeChar]
    split
    · next m hm =>
      have hstep : ∀ r, stringEnd n (['\\', m] ++ r) = stringEnd (n + 2) r := fun _ => rfl
      rw [hstep, ih, Prod.mk.injEq]
      refine ⟨rfl, ?_⟩
      rw [List.length_cons, List.length_singleton]
      omega
    · next hm =>
      have hstep : ∀ r, stringEnd n ([c] ++ r) = stringEnd (n + 1) r := by
        intro r
        rw [List.singleton_append, stringEnd]
        · rintro rfl
          cases hm
        · rintro rfl
          cases hm
        · rintro rfl
          cases hm
        · rintro d ds rfl
          cases hm
      rw [hstep, ih, Prod.mk.injEq]
      refine ⟨rfl, ?_⟩
      rw [List.length_singleton]
      omega

lemma toList_quote (s : String) : (Quoted.quote s).toList = '"' :: (Quoted.encode s.toList ++ ['"']) := by
  rw [Quoted.quote, String.toList_append, String.toList_append, String.toList_ofList, String.toList_ofList,
    List.singleton_append, List.cons_append]

lemma closed_quote (s : String) : Closed (Quoted.quote s) [.str (String.ofList (Quoted.encode s.toList))] := by
  refine closed_of_scan (toList_quote s) (by decide) (by decide) fun rest => ?_
  show scanString _ = _
  rw [List.append_assoc, List.singleton_append, scanString, stringEnd_encode]
  have htake : (Quoted.encode s.toList ++ '"' :: rest).take ((Quoted.encode s.toList).length + 1) =
      Quoted.encode s.toList ++ ['"'] := by
    rw [List.take_length_add_append]
    rfl
  simp only [Nat.zero_add, htake, if_true, Nat.add_sub_cancel, List.take_left]

end Strings

end Token

namespace Quoted

lemma decodeOnto_encode (done cs : List Char) : decodeOnto done (encode cs) = some (done.reverse ++ cs) := by
  induction cs generalizing done with
  | nil => rw [encode, List.flatMap_nil, decodeOnto, List.append_nil]
  | cons c cs ih =>
    have hencode : encode (c :: cs) = encodeChar c ++ encode cs := List.flatMap_cons
    have hdone : (c :: done).reverse ++ cs = done.reverse ++ c :: cs := by
      rw [List.reverse_cons, List.append_assoc, List.singleton_append]
    rw [hencode, encodeChar, ← hdone, ← ih]
    split
    · next m hm =>
      have hmarked : marked? m = some c := by
        unfold mark? at hm
        split at hm <;> cases hm <;> rfl
      rw [List.cons_append, List.singleton_append, decodeOnto, hmarked]
    · next hm =>
      have hslash : c ≠ '\\' := by
        rintro rfl
        cases hm
      rw [List.singleton_append, decodeOnto]
      · rintro rfl
        exact absurd rfl hslash
      · rintro m r rfl
        exact absurd rfl hslash

lemma decode?_encode (cs : List Char) : decode? (encode cs) = some cs := decodeOnto_encode [] cs

end Quoted

lemma toList_toString_int (n : Int) :
    (toString n).toList = Token.sign (n < 0) ++ Nat.toDigits 10 n.natAbs := by
  rw [Int.toString_eq_repr, Int.repr_eq_if]
  split
  · next h =>
    have hnat : n.toNat = n.natAbs := by omega
    have hsign : ¬ n < 0 := by omega
    rw [Nat.toList_repr, hnat, Token.sign]
    simp only [hsign, decide_false, Bool.false_eq_true, if_false, List.nil_append]
  · next h =>
    have hnat : (-n).toNat = n.natAbs := by omega
    have hsign : n < 0 := by omega
    rw [String.toList_append, Nat.toList_repr, hnat, Token.sign]
    simp only [hsign, decide_true, if_true]
    rfl

namespace Literal

lemma radixAndDigits_toDigits (n : Nat) :
    radixAndDigits (Nat.toDigits 10 n) = (10, Nat.toDigits 10 n) :=
  radixAndDigits_eq (Numeral.isDigit_of_mem_toDigits n)

lemma magnitude?_toDigits {n : Nat} (h : n < UInt64.size) : magnitude? (Nat.toDigits 10 n) = some n := by
  unfold magnitude?
  rw [radixAndDigits_toDigits]
  simp only [Numeral.below?, Numeral.value?_toDigits, Option.filter_some, h, decide_true, if_true]

lemma int?_toString (n : Int64) : int? (toString n.toInt).toList = some n := by
  have hlow := n.le_toInt
  have hhigh := n.toInt_lt
  have hsize : UInt64.size = 2 ^ 64 := rfl
  have hmag : magnitude? (Nat.toDigits 10 n.toInt.natAbs) = some n.toInt.natAbs :=
    magnitude?_toDigits (by omega)
  rw [toList_toString_int]
  by_cases hneg : n.toInt < 0
  · have hrange : n.toInt.natAbs ≤ UInt64.size / 2 := by omega
    have hvalue : -(n.toInt.natAbs : Int) = n.toInt := by omega
    simp only [Token.sign, hneg, decide_true, if_true, List.singleton_append, int?, hmag, Option.bind_some,
      hrange, hvalue, Int64.ofInt_toInt]
  · have hrange : n.toInt.natAbs < UInt64.size / 2 := by omega
    have hvalue : (n.toInt.natAbs : Int) = n.toInt := by omega
    simp only [Token.sign, hneg, decide_false, Bool.false_eq_true, if_false, List.nil_append]
    unfold int?
    split
    · next heq =>
      have hdigit : '-'.isDigit := Numeral.isDigit_of_mem_toDigits n.toInt.natAbs _ (by simp [heq])
      exact absurd hdigit (by decide)
    · simp only [hmag, Option.bind_some, radixAndDigits_toDigits, ne_eq, not_true_eq_false, if_false,
        hrange, if_true, hvalue, Int64.ofInt_toInt]

lemma toList_uint (n : UInt64) :
    (toString n.toNat ++ "u").toList = Nat.toDigits 10 n.toNat ++ ['u'] := by
  rw [String.toList_append, Nat.toString_eq_repr, Nat.toList_repr]
  rfl

lemma uint?_toString (n : UInt64) : uint? (toString n.toNat ++ "u").toList = some n := by
  rw [toList_uint, uint?, List.dropLast_concat, magnitude?_toDigits n.toNat_lt, Option.map_some,
    UInt64.ofNat_toNat]

lemma str?_encode (s : String) : str? (Quoted.encode s.toList) = some s := by
  rw [str?, Quoted.decode?_encode, Option.map_some, String.ofList_toList]

end Literal

namespace Token

lemma open_toString_int (n : Int) : Open (toString n) [.int (toString n)] := by
  obtain ⟨first, whole, heq, hstarts⟩ := exists_startsNumber (n < 0) Nat.toDigits_ne_nil
    (Numeral.isDigit_of_mem_toDigits n.natAbs)
  exact open_int ((toList_toString_int n).trans heq) hstarts

lemma closed_uint_text (n : UInt64) :
    Closed (toString n.toNat ++ "u") [.uint (toString n.toNat ++ "u")] := by
  obtain ⟨first, whole, heq, hstarts⟩ := exists_startsNumber false Nat.toDigits_ne_nil
    (Numeral.isDigit_of_mem_toDigits n.toNat)
  refine closed_uint ?_ hstarts
  rw [Literal.toList_uint, ← List.cons_append, ← heq]
  rfl

end Token

end BlockIR
