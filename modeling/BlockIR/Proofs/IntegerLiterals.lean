import BlockIR.Proofs.ErrorPlaces
import BlockIR.Proofs.RoundTrip.Literals

/-!
# Integer literals

The literals of integers that the tokens of a text can be, and what they stand for: the number that their digits
spell, if it is in range.
-/

namespace BlockIR

namespace Literal

/-- A sign or none, and one or more decimal digits. -/
def IsDecimal (negative : Bool) (ds w : List Char) : Prop :=
  w = Token.sign negative ++ ds ∧ ds ≠ [] ∧ ∀ c ∈ ds, c.isDigit

/-- A zero, the mark of a radix, and digits of this radix, of which there may be none. -/
def IsMarked (radix : Nat) (ds w : List Char) : Prop :=
  (∃ mark, (mark, radix) ∈ radixMarks ∧ w = '0' :: mark :: ds) ∧ ∀ c ∈ ds, Numeral.digitValue c < radix

/-- The literal of an integer, without the suffix of an unsigned one. -/
def IsInteger (w : List Char) : Prop := (∃ negative ds, IsDecimal negative ds w) ∨ ∃ radix ds, IsMarked radix ds w

/-- The number with a sign. -/
def signed (negative : Bool) (n : Nat) : Int := if negative then -n else n

/-- The literal stands for a constant just if it is valid, and then for one of this kind with such a value. -/
def Means {α : Type} (t : Token) (kind : α → Constant) (valid : Prop) (P : α → Prop) : Prop :=
  ((∃ c, Constant.ofToken? t = some (some c)) ↔ valid) ∧
    ∀ c, Constant.ofToken? t = some (some c) → ∃ v, c = kind v ∧ P v

lemma radix_of_mark {mark : Char} {radix : Nat} (h : (mark, radix) ∈ radixMarks) :
    radix ∈ [2, 8, 10, 16] ∧ radix ≠ 10 := by
  have hall : ∀ e ∈ radixMarks, e.2 ∈ [2, 8, 10, 16] ∧ e.2 ≠ 10 := by decide
  exact hall _ h

end Literal

open Literal

namespace Token

/-- An integer literal is spelt in decimal, or with a radix mark, and an unsigned one ends in a `u`. -/
def IsSpeltInteger : Token → Prop
  | int s => IsInteger s.toList
  | uint s => ∃ w, s.toList = w ++ ['u'] ∧ IsInteger w
  | _ => True

section Scanners

variable {c : Char} {cs w : List Char}

lemma isDigit_cons_takeWhile (hc : c.isDigit) (cs : List Char) : ∀ d ∈ c :: cs.takeWhile Char.isDigit, d.isDigit :=
  List.forall_mem_cons.2 ⟨hc, List.all_eq_true.1 List.all_takeWhile⟩

lemma isSpeltInteger_scanNumber (h : c.isDigit ∨ c = '-' ∧ ∃ d ds, cs = d :: ds ∧ d.isDigit) :
    (scanNumber c cs).1.IsSpeltInteger := by
  have hdecimal : IsInteger (c :: cs.takeWhile Char.isDigit) := by
    rcases h with hc | ⟨rfl, d, ds, rfl, hd⟩
    · exact .inl ⟨false, _, rfl, List.cons_ne_nil _ _, isDigit_cons_takeWhile hc cs⟩
    · refine .inl ⟨true, (d :: ds).takeWhile Char.isDigit, rfl, ?_⟩
      rw [List.takeWhile_cons_of_pos hd]
      exact ⟨List.cons_ne_nil _ _, isDigit_cons_takeWhile hd ds⟩
  unfold scanNumber
  dsimp only
  split
  · trivial
  · exact ⟨_, String.toList_ofList, hdecimal⟩
  · show IsInteger (String.ofList _).toList
    rw [String.toList_ofList]
    exact hdecimal

lemma isSpeltInteger_scanRadix (hc : c = 'x' ∨ c = 'b' ∨ c = 'o') (cs : List Char) :
    (scanRadix c cs).1.IsSpeltInteger := by
  have hmarked : IsInteger ('0' :: c :: cs.takeWhile (isRadixDigit c)) := by
    obtain ⟨radix, hmark, hdigit⟩ :
        ∃ radix, (c, radix) ∈ radixMarks ∧ ∀ d, isRadixDigit c d = (Numeral.digit? radix d).isSome := by
      rcases hc with rfl | rfl | rfl
      · exact ⟨16, by decide, fun _ => rfl⟩
      · exact ⟨2, by decide, fun _ => rfl⟩
      · exact ⟨8, by decide, fun _ => rfl⟩
    refine .inr ⟨radix, _, ⟨c, hmark, rfl⟩, fun d hd => ?_⟩
    rw [← Numeral.isSome_digit?_iff (radix_of_mark hmark).1, ← hdigit]
    exact List.all_eq_true.1 List.all_takeWhile d hd
  unfold scanRadix
  dsimp only
  split
  · exact ⟨_, String.toList_ofList, hmarked⟩
  · show IsInteger (String.ofList _).toList
    rw [String.toList_ofList]
    exact hmarked

lemma isSpeltInteger_ofWord (w : List Char) : (ofWord w).IsSpeltInteger := by
  have hall : ∀ e ∈ keywords, (match e.2 with
      | .int _ | .uint _ => false
      | _ => true) = true := by decide
  unfold ofWord
  split
  · next k hk =>
    have hk' := hall (String.ofList w, k) (keyword?_eq_some_iff.1 hk)
    cases k <;> trivial
  · cases hlocal : local? w with
    | none => trivial
    | some k =>
      unfold local? at hlocal
      split at hlocal
      · obtain ⟨i, -, rfl⟩ := Option.map_eq_some_iff.1 hlocal
        trivial
      · obtain ⟨i, -, rfl⟩ := Option.map_eq_some_iff.1 hlocal
        trivial
      · obtain ⟨i, -, rfl⟩ := Option.map_eq_some_iff.1 hlocal
        trivial
      · cases hlocal

lemma isSpeltInteger_scan (c : Char) (cs : List Char) : (scan c cs).1.IsSpeltInteger := by
  unfold scan
  split
  · trivial
  · split_ifs with hquote hminus hzero hdigit hword
    · unfold scanString
      dsimp only
      split_ifs <;> trivial
    · unfold scanMinus
      split
      · trivial
      · split_ifs with hd
        · exact isSpeltInteger_scanNumber (.inr ⟨rfl, _, _, rfl, hd⟩)
        · trivial
      · trivial
    · unfold scanZero
      split
      · split_ifs with hmark
        · exact isSpeltInteger_scanRadix hmark _
        · exact isSpeltInteger_scanNumber (.inl rfl)
      · exact isSpeltInteger_scanNumber (.inl rfl)
    · exact isSpeltInteger_scanNumber (.inl hdigit)
    · exact isSpeltInteger_ofWord _
    · trivial

end Scanners

end Token

namespace Literal

variable {radix : Nat} {ds w : List Char}

lemma radix_of_marked (h : IsMarked radix ds w) : radix ∈ [2, 8, 10, 16] ∧ radix ≠ 10 := by
  obtain ⟨⟨mark, hmark, -⟩, -⟩ := h
  exact radix_of_mark hmark

lemma radixOf_marked (h : IsMarked radix ds w) : radixOf w = radix := by
  obtain ⟨⟨mark, hmark, rfl⟩, -⟩ := h
  have hall : ∀ e ∈ radixMarks, radixMarks.lookup e.1 = some e.2 := by decide
  rw [radixOf, hall _ hmark, Option.getD_some]

lemma digitsOf_marked (h : IsMarked radix ds w) : digitsOf w = ds := by
  rw [digitsOf, radixOf_marked h, if_neg (radix_of_marked h).2]
  obtain ⟨⟨mark, -, rfl⟩, -⟩ := h
  rfl

lemma magnitude?_marked {n : Nat} (h : IsMarked radix ds w) :
    magnitude? w = some n ↔ ds ≠ [] ∧ n < 2 ^ 64 ∧ Numeral.spelled radix ds = n := by
  rw [magnitude?_eq_some_iff, IsBelow, numberOf, radixOf_marked h, digitsOf_marked h]
  constructor
  · rintro ⟨⟨hne, -, hlt⟩, rfl⟩
    exact ⟨hne, hlt, rfl⟩
  · rintro ⟨hne, hlt, rfl⟩
    exact ⟨⟨hne, h.2, hlt⟩, rfl⟩

lemma magnitude?_digits {n : Nat} (h : AreDigits ds) :
    magnitude? ds = some n ↔ n < 2 ^ 64 ∧ Numeral.spelled 10 ds = n := by
  have hsize : UInt64.size = 2 ^ 64 := rfl
  rw [magnitude?, radixAndDigits_eq h.2]
  simp only [Numeral.below?, Option.filter_eq_some_iff, value?_ten_eq_some_iff, h, true_and, hsize, decide_eq_true_eq]
  exact and_comm

lemma ne_minus_cons (hds : ∀ c ∈ ds, c.isDigit) : ∀ ds', ds = '-' :: ds' → False := by
  rintro ds' rfl
  exact absurd (hds '-' List.mem_cons_self) (by decide)

lemma int?_decimal {negative : Bool} {v : Int64} (h : IsDecimal negative ds w) :
    int? w = some v ↔ v.toInt = signed negative (Numeral.spelled 10 ds) := by
  have hhalf : UInt64.size / 2 = 2 ^ 63 := rfl
  have hlow := v.le_toInt
  have hhigh := v.toInt_lt
  obtain ⟨rfl, hds⟩ := h
  cases negative with
  | true =>
    show (magnitude? ds).bind _ = some v ↔ v.toInt = -(Numeral.spelled 10 ds : Int)
    simp only [Option.bind_eq_some_iff, magnitude?_digits hds, hhalf, Option.ite_none_right_eq_some,
      Option.some.injEq]
    constructor
    · rintro ⟨_, ⟨-, rfl⟩, hle, rfl⟩
      exact Int64.toInt_ofInt_of_le (by omega) (by omega)
    · intro hv
      refine ⟨_, ⟨by omega, rfl⟩, by omega, ?_⟩
      rw [← hv, Int64.ofInt_toInt]
  | false =>
    show int? ds = some v ↔ v.toInt = (Numeral.spelled 10 ds : Int)
    rw [int?.eq_2 _ (ne_minus_cons hds.2), radixAndDigits_eq hds.2]
    simp only [Option.bind_eq_some_iff, magnitude?_digits hds, hhalf, Option.ite_none_right_eq_some,
      Option.some.injEq, ne_eq, not_true_eq_false, if_false]
    constructor
    · rintro ⟨_, ⟨-, rfl⟩, hlt, rfl⟩
      exact Int64.toInt_ofInt_of_le (by omega) (by omega)
    · intro hv
      refine ⟨_, ⟨by omega, rfl⟩, by omega, ?_⟩
      rw [← hv, Int64.ofInt_toInt]

/-- A literal with a radix mark stands for the word of its bits, if there are digits and not too many bits. -/
lemma int?_marked {v : Int64} (h : IsMarked radix ds w) :
    int? w = some v ↔ ds ≠ [] ∧ v.toUInt64.toNat = Numeral.spelled radix ds := by
  have hminus : ∀ ds', w = '-' :: ds' → False := by
    obtain ⟨⟨mark, -, rfl⟩, -⟩ := h
    rintro ds' ⟨⟩
  rw [int?.eq_2 _ hminus, radixAndDigits_eq_radixOf_digitsOf, radixOf_marked h]
  simp only [Option.bind_eq_some_iff, magnitude?_marked h, ne_eq, (radix_of_marked h).2, not_false_eq_true, if_true,
    Option.some.injEq]
  constructor
  · rintro ⟨_, ⟨hne, hlt, rfl⟩, rfl⟩
    exact ⟨hne, UInt64.toNat_ofNat_of_lt' hlt⟩
  · rintro ⟨hne, hv⟩
    refine ⟨_, ⟨hne, hv ▸ v.toUInt64.toNat_lt, rfl⟩, ?_⟩
    rw [← hv, UInt64.ofNat_toNat, Int64.toInt64_toUInt64]

lemma uint?_concat_eq_some_iff {v : UInt64} : uint? (w ++ ['u']) = some v ↔ magnitude? w = some v.toNat := by
  rw [uint?, List.dropLast_concat, Option.map_eq_some_iff]
  constructor
  · rintro ⟨n, hn, rfl⟩
    obtain ⟨⟨-, -, hlt⟩, hvalue⟩ := magnitude?_eq_some_iff.1 hn
    rw [hn, UInt64.toNat_ofNat_of_lt' (hvalue ▸ hlt)]
  · intro hn
    exact ⟨_, hn, UInt64.ofNat_toNat⟩

lemma uint?_decimal {negative : Bool} {v : UInt64} (h : IsDecimal negative ds w) :
    uint? (w ++ ['u']) = some v ↔ negative = false ∧ v.toNat = Numeral.spelled 10 ds := by
  obtain ⟨rfl, hds⟩ := h
  rw [uint?_concat_eq_some_iff]
  cases negative with
  | true => exact iff_of_false nofun nofun
  | false =>
    refine (magnitude?_digits hds).trans ⟨?_, ?_⟩
    · rintro ⟨-, hv⟩
      exact ⟨rfl, hv.symm⟩
    · rintro ⟨-, hv⟩
      exact ⟨v.toNat_lt, hv.symm⟩

lemma uint?_marked {v : UInt64} (h : IsMarked radix ds w) :
    uint? (w ++ ['u']) = some v ↔ ds ≠ [] ∧ v.toNat = Numeral.spelled radix ds := by
  rw [uint?_concat_eq_some_iff, magnitude?_marked h]
  constructor
  · rintro ⟨hne, -, hv⟩
    exact ⟨hne, hv.symm⟩
  · rintro ⟨hne, hv⟩
    exact ⟨hne, v.toNat_lt, hv.symm⟩

lemma means_of_iff {α : Type} {t : Token} {kind : α → Constant} {o : Option α} {valid : Prop} {P Q : α → Prop}
    (ht : Constant.ofToken? t = some (o.map kind)) (ho : ∀ v, o = some v ↔ Q v) (hvalid : (∃ v, Q v) ↔ valid)
    (hP : ∀ v, Q v → P v) : Means t kind valid P := by
  have hiff : ∀ c, Constant.ofToken? t = some (some c) ↔ ∃ v, Q v ∧ kind v = c := by
    intro c
    simp only [ht, Option.some.injEq, Option.map_eq_some_iff, ho]
  constructor
  · rw [← hvalid]
    constructor
    · rintro ⟨c, hc⟩
      obtain ⟨v, hv, -⟩ := (hiff c).1 hc
      exact ⟨v, hv⟩
    · rintro ⟨v, hv⟩
      exact ⟨kind v, (hiff _).2 ⟨v, hv, rfl⟩⟩
  · intro c hc
    obtain ⟨v, hv, rfl⟩ := (hiff c).1 hc
    exact ⟨v, rfl, hP v hv⟩

lemma exists_toInt_eq_iff {n : Int} : (∃ v : Int64, v.toInt = n) ↔ -2 ^ 63 ≤ n ∧ n < 2 ^ 63 := by
  constructor
  · rintro ⟨v, rfl⟩
    exact ⟨v.le_toInt, v.toInt_lt⟩
  · rintro ⟨hlow, hhigh⟩
    exact ⟨.ofInt n, Int64.toInt_ofInt_of_le hlow hhigh⟩

lemma exists_toNat_eq_iff {n : Nat} : (∃ v : UInt64, v.toNat = n) ↔ n < 2 ^ 64 := by
  constructor
  · rintro ⟨v, rfl⟩
    exact v.toNat_lt
  · intro h
    exact ⟨.ofNat n, UInt64.toNat_ofNat_of_lt' h⟩

lemma exists_bits_eq_iff {n : Nat} : (∃ v : Int64, v.toUInt64.toNat = n) ↔ n < 2 ^ 64 := by
  rw [← exists_toNat_eq_iff]
  constructor
  · rintro ⟨v, hv⟩
    exact ⟨v.toUInt64, hv⟩
  · rintro ⟨v, hv⟩
    exact ⟨v.toInt64, hv⟩

end Literal

namespace Token

/-- What the integer literals stand for. A decimal one has to be in the range of signed words; one with a radix mark
spells the bits of a word, and needs a digit. An unsigned one needs a digit, and may have no sign. -/
def MeansInteger : Token → Prop
  | int s =>
    (∃ negative ds, IsDecimal negative ds s.toList ∧
      Means (int s) .int
        (-2 ^ 63 ≤ signed negative (Numeral.spelled 10 ds) ∧ signed negative (Numeral.spelled 10 ds) < 2 ^ 63)
        (fun v => v.toInt = signed negative (Numeral.spelled 10 ds))) ∨
    ∃ radix ds, IsMarked radix ds s.toList ∧
      Means (int s) .int (ds ≠ [] ∧ Numeral.spelled radix ds < 2 ^ 64)
        (fun v => v.toUInt64.toNat = Numeral.spelled radix ds)
  | uint s => ∃ w, s.toList = w ++ ['u'] ∧
    ((∃ negative ds, IsDecimal negative ds w ∧
      Means (uint s) .uint (negative = false ∧ Numeral.spelled 10 ds < 2 ^ 64)
        (fun v => v.toNat = Numeral.spelled 10 ds)) ∨
    ∃ radix ds, IsMarked radix ds w ∧
      Means (uint s) .uint (ds ≠ [] ∧ Numeral.spelled radix ds < 2 ^ 64)
        (fun v => v.toNat = Numeral.spelled radix ds))
  | _ => True

lemma meansInteger_int {s : String} (h : IsInteger s.toList) : (int s).MeansInteger := by
  rcases h with ⟨negative, ds, h⟩ | ⟨radix, ds, h⟩
  · exact .inl ⟨negative, ds, h, means_of_iff rfl (fun v => int?_decimal h) exists_toInt_eq_iff fun v hv => hv⟩
  · refine .inr ⟨radix, ds, h, means_of_iff rfl (fun v => int?_marked h) ?_ fun v hv => hv.2⟩
    rw [exists_and_left, exists_bits_eq_iff]

lemma meansInteger_uint {s : String} {w : List Char} (hs : s.toList = w ++ ['u']) (h : IsInteger w) :
    (uint s).MeansInteger := by
  have htoken : Constant.ofToken? (uint s) = some ((uint? (w ++ ['u'])).map .uint) := by rw [← hs]; rfl
  refine ⟨w, hs, ?_⟩
  rcases h with ⟨negative, ds, h⟩ | ⟨radix, ds, h⟩
  · refine .inl ⟨negative, ds, h, means_of_iff htoken (fun v => uint?_decimal h) ?_ fun v hv => hv.2⟩
    rw [exists_and_left, exists_toNat_eq_iff]
  · refine .inr ⟨radix, ds, h, means_of_iff htoken (fun v => uint?_marked h) ?_ fun v hv => hv.2⟩
    rw [exists_and_left, exists_toNat_eq_iff]

end Token

/-- The integer literals that are tokens of a text are spelt in decimal or with a radix mark. They stand for the
number that they spell just if it is in range and has digits, and an unsigned one just if it has no sign. -/
theorem Lexeme.meansInteger_of_mem_ofText {source : String} {l : Lexeme} (h : l ∈ ofText source) :
    l.token.MeansInteger := by
  obtain ⟨front, back, hls⟩ := List.append_of_mem h
  obtain ⟨p, q, before, c, tail, rest, hat, -⟩ := exists_scannedAt hls
  have hspelt := Token.isSpeltInteger_scan c (tail ++ rest)
  rw [hat.scan] at hspelt
  cases htoken : l.token with
  | int s =>
    rw [htoken] at hspelt
    exact Token.meansInteger_int hspelt
  | uint s =>
    rw [htoken] at hspelt
    obtain ⟨w, hs, hw⟩ := hspelt
    exact Token.meansInteger_uint hs hw
  | _ => trivial

/-- The least number of signed words, with leading zeros. -/
theorem Lexeme.leastInteger_meansInteger :
    (⟨.int "-0009223372036854775808", ⟨1, 1, 23⟩⟩ : Lexeme) ∈ ofText "-0009223372036854775808" ∧
      (Token.int "-0009223372036854775808").MeansInteger ∧
      Constant.ofToken? (.int "-0009223372036854775808") = some (some (.int Int64.minValue)) := by
  have h : (⟨.int "-0009223372036854775808", ⟨1, 1, 23⟩⟩ : Lexeme) ∈ ofText "-0009223372036854775808" := by
    decide +kernel
  exact ⟨h, meansInteger_of_mem_ofText h, by decide +kernel⟩

end BlockIR
