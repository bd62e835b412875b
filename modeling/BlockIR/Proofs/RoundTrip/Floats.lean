import BlockIR.Proofs.RoundTrip.Literals
import BlockIR.Proofs.RoundTrip.Rounding

/-!
# Literals of doubles

The text of a finite double is a float literal, plain or with an exponent, and the literal has the double
as its value.
-/

namespace BlockIR

/-- The parts of a float without its sign: digits, and digits after the point, and perhaps an exponent. -/
structure FloatParts where
  whole : List Char
  places : List Char
  exponent : Option Int

namespace FloatParts

def tail (p : FloatParts) : List Char :=
  match p.exponent with
  | some e => 'e' :: (toString e).toList
  | none => []

def chars (p : FloatParts) : List Char := p.whole ++ '.' :: (p.places ++ p.tail)

structure Valid (p : FloatParts) : Prop where
  whole_ne_nil : p.whole ≠ []
  whole : ∀ c ∈ p.whole, c.isDigit
  places : ∀ c ∈ p.places, c.isDigit

def value (negative : Bool) (p : FloatParts) : Binary64 :=
  .ofDecimal negative (Nat.ofDigitChars 10 (p.whole ++ p.places) 0) (p.exponent.getD 0 - p.places.length)

end FloatParts

namespace Token

variable {rest : List Char}

lemma exponentPart_tail (p : FloatParts) (hrest : breaks rest) : exponentPart (p.tail ++ rest) = p.tail := by
  have hdigits : ∀ n, (Nat.toDigits 10 n ++ rest).takeWhile Char.isDigit = Nat.toDigits 10 n := fun n =>
    takeWhile_isDigit_append (Numeral.isDigit_of_mem_toDigits n) (not_isDigit_of_breaks hrest)
  unfold FloatParts.tail
  cases p.exponent with
  | none =>
    rw [List.nil_append]
    unfold exponentPart
    split
    · exact absurd hrest Bool.false_ne_true
    · exact absurd hrest Bool.false_ne_true
    · rfl
  | some e =>
    dsimp only
    rw [toList_toString_int, sign, List.cons_append]
    by_cases hneg : e < 0
    · simp only [hneg, decide_true, if_true, List.cons_append, List.nil_append, exponentPart, hdigits]
    · simp only [hneg, decide_false, Bool.false_eq_true, if_false, List.nil_append]
      rw [exponentPart, hdigits]
      intro cs heq
      obtain ⟨d, ds, hds⟩ := List.exists_cons_of_ne_nil (Nat.toDigits_ne_nil (b := 10) (n := e.natAbs))
      rw [hds] at heq
      have hd : d.isDigit := Numeral.isDigit_of_mem_toDigits e.natAbs _ (by rw [hds]; exact List.mem_cons_self)
      rw [List.head_eq_of_cons_eq heq] at hd
      exact absurd hd (by decide)

lemma not_isDigit_tail (p : FloatParts) (hrest : breaks rest) :
    ∀ c ∈ (p.tail ++ rest).head?, c.isDigit = false := by
  unfold FloatParts.tail
  cases p.exponent with
  | none => exact not_isDigit_of_breaks hrest
  | some e =>
    rintro c hc
    cases hc
    rfl

lemma open_float {s : String} {negative : Bool} {p : FloatParts} (hp : p.Valid)
    (hs : s.toList = sign negative ++ p.chars) : Open s [.float s] := by
  obtain ⟨first, whole, heq, hstarts⟩ := exists_startsNumber negative hp.whole_ne_nil hp.whole
  obtain ⟨hspace, hslash⟩ := hstarts.not_layout
  have hchars : s.toList = first :: (whole ++ '.' :: (p.places ++ p.tail)) := by
    rw [hs, FloatParts.chars, ← List.append_assoc, heq, List.cons_append]
  refine open_of_scan hchars hspace hslash fun rest hrest => ?_
  have hdot : ∀ c ∈ ('.' :: (p.places ++ p.tail) ++ rest).head?, c ≠ 'x' ∧ c ≠ 'b' ∧ c ≠ 'o' := by
    rintro c hc
    cases hc
    decide
  have hwhole : (whole ++ ('.' :: (p.places ++ p.tail) ++ rest)).takeWhile Char.isDigit = whole := by
    refine takeWhile_isDigit_append hstarts.1 ?_
    rintro c hc
    cases hc
    rfl
  have hplaces : (p.places ++ (p.tail ++ rest)).takeWhile Char.isDigit = p.places :=
    takeWhile_isDigit_append hp.places (not_isDigit_tail p hrest)
  have hdrop : (whole ++ ('.' :: (p.places ++ p.tail) ++ rest)).drop whole.length =
      '.' :: (p.places ++ (p.tail ++ rest)) := by
    rw [List.drop_left, List.cons_append, List.append_assoc]
  rw [List.append_assoc, hstarts.scan_eq hdot]
  simp only [scanNumber, hwhole, hdrop, hplaces, List.drop_left, exponentPart_tail p hrest]
  rw [List.append_assoc, List.cons_append, ← hchars, String.ofList_toList]

end Token

namespace Literal

lemma exponent?_tail (p : FloatParts) : exponent? p.tail = some (p.exponent.getD 0) := by
  unfold FloatParts.tail
  cases p.exponent with
  | none => rfl
  | some e =>
    dsimp only
    rw [toList_toString_int, Token.sign, Option.getD_some]
    by_cases hneg : e < 0
    · have hvalue : -(e.natAbs : Int) = e := by omega
      simp only [hneg, decide_true, if_true, List.singleton_append, exponent?, Numeral.value?_toDigits]
      exact congrArg some hvalue
    · have hvalue : (e.natAbs : Int) = e := by omega
      simp only [hneg, decide_false, Bool.false_eq_true, if_false, List.nil_append]
      rw [exponent?, Numeral.value?_toDigits]
      · exact congrArg some hvalue
      intro cs heq
      have hd : '-'.isDigit := Numeral.isDigit_of_mem_toDigits e.natAbs _ (by rw [heq]; exact List.mem_cons_self)
      exact absurd hd (by decide)

lemma magnitudeFloat?_chars {p : FloatParts} (hp : p.Valid) (negative : Bool) :
    magnitudeFloat? negative p.chars = some (p.value negative) := by
  have hwhole : p.chars.takeWhile Char.isDigit = p.whole := by
    refine Token.takeWhile_isDigit_append hp.whole ?_
    rintro c hc
    cases hc
    rfl
  have hplaces : (p.places ++ p.tail).takeWhile Char.isDigit = p.places := by
    have hend : Token.breaks [] := rfl
    have htail := Token.not_isDigit_tail p hend
    rw [List.append_nil] at htail
    exact Token.takeWhile_isDigit_append hp.places htail
  have hdrop : p.chars.drop p.whole.length = '.' :: (p.places ++ p.tail) := by
    rw [FloatParts.chars, List.drop_left]
  have hne : p.whole ++ p.places ≠ [] := by
    intro hnil
    exact hp.whole_ne_nil (List.append_eq_nil_iff.1 hnil).1
  have hdigits : ∀ c ∈ p.whole ++ p.places, c.isDigit := by
    intro c hc
    rcases List.mem_append.1 hc with hc | hc
    · exact hp.whole c hc
    · exact hp.places c hc
  unfold magnitudeFloat?
  simp only [hwhole, hdrop, hplaces, List.drop_left, exponent?_tail, Numeral.value?_eq hne hdigits]
  rfl

lemma float?_sign {p : FloatParts} (hp : p.Valid) (negative : Bool) :
    float? (Token.sign negative ++ p.chars) = some (p.value negative) := by
  rw [← magnitudeFloat?_chars hp negative]
  cases negative with
  | true => rfl
  | false =>
    obtain ⟨d, ds, hds⟩ := List.exists_cons_of_ne_nil hp.whole_ne_nil
    have hd : d.isDigit := hp.whole d (by rw [hds]; exact List.mem_cons_self)
    have hchars : p.chars = d :: (ds ++ '.' :: (p.places ++ p.tail)) := by
      rw [FloatParts.chars, hds, List.cons_append]
    show float? p.chars = _
    rw [float?]
    intro cs heq
    rw [hchars] at heq
    rw [List.head_eq_of_cons_eq heq] at hd
    exact absurd hd (by decide)

end Literal

namespace Binary64

section Parts

variable {d : Decimal}

/-- Parts that spell a decimal, and stand for it with either sign. -/
def Spells (p : FloatParts) (text : String) (d : Decimal) : Prop :=
  p.Valid ∧ text.toList = p.chars ∧ ∀ neg, p.value neg = ofDecimal neg d.digits d.exponent

lemma isDigit_of_mem_append {ds ds' : List Char} (h : ∀ c ∈ ds, c.isDigit) (h' : ∀ c ∈ ds', c.isDigit) :
    ∀ c ∈ ds ++ ds', c.isDigit := by
  intro c hc
  rcases List.mem_append.1 hc with hc | hc
  · exact h c hc
  · exact h' c hc

lemma isDigit_of_mem_replicate (n : Nat) : ∀ c ∈ List.replicate n '0', c.isDigit := by
  intro c hc
  rw [List.eq_of_mem_replicate hc]
  rfl

lemma ofDigitChars_zeros (k j : Nat) :
    Nat.ofDigitChars 10 (Nat.toDigits 10 k ++ List.replicate j '0') 0 = k * 10 ^ j := by
  rw [Nat.ofDigitChars_append, Nat.ofDigitChars_ten_toDigits, Nat.ofDigitChars_replicate_zero, Nat.mul_comm]

lemma exists_spells_plain (hd : d.digits ≠ 0) : ∃ p, Spells p (plainText d) d := by
  unfold plainText
  split
  · next hexp =>
    refine ⟨⟨Nat.toDigits 10 d.digits ++ List.replicate d.exponent.toNat '0', ['0'], none⟩, ⟨?_, ?_, ?_⟩, ?_, ?_⟩
    · exact fun hnil => Nat.toDigits_ne_nil (List.append_eq_nil_iff.1 hnil).1
    · exact isDigit_of_mem_append (Numeral.isDigit_of_mem_toDigits _) (isDigit_of_mem_replicate _)
    · exact isDigit_of_mem_replicate 1
    · rw [String.toList_append, String.toList_ofList]
      rfl
    · intro neg
      have hzeros : Nat.toDigits 10 d.digits ++ List.replicate d.exponent.toNat '0' ++ ['0'] =
          Nat.toDigits 10 d.digits ++ List.replicate (d.exponent.toNat + 1) '0' := by
        rw [List.append_assoc, List.replicate_succ']
      have hsum : ((none : Option Int).getD 0 - (['0'] : List Char).length) + (d.exponent.toNat + 1 : Nat) =
          d.exponent := by
        rw [Option.getD_none, List.length_singleton]
        omega
      simp only [FloatParts.value, hzeros, ofDigitChars_zeros]
      rw [ofDecimal_mul_pow neg hd, hsum]
  · next hexp =>
    dsimp only
    generalize hpadded : List.replicate ((-d.exponent).toNat + 1 - (Nat.toDigits 10 d.digits).length) '0' ++
      Nat.toDigits 10 d.digits = padded
    have hdigits : ∀ c ∈ padded, c.isDigit := by
      rw [← hpadded]
      exact isDigit_of_mem_append (isDigit_of_mem_replicate _) (Numeral.isDigit_of_mem_toDigits _)
    have hlength : (-d.exponent).toNat < padded.length := by
      rw [← hpadded, List.length_append, List.length_replicate]
      omega
    have hvalue : Nat.ofDigitChars 10 padded 0 = d.digits := by
      rw [← hpadded, Nat.ofDigitChars_append, Nat.ofDigitChars_replicate_zero, Nat.mul_zero,
        Nat.ofDigitChars_ten_toDigits]
    refine ⟨⟨padded.take (padded.length - (-d.exponent).toNat),
      padded.drop (padded.length - (-d.exponent).toNat), none⟩, ⟨?_, ?_, ?_⟩, ?_, ?_⟩
    · intro hnil
      have hzero := congrArg List.length hnil
      rw [List.length_take, List.length_nil] at hzero
      omega
    · exact fun c hc => hdigits c (List.mem_of_mem_take hc)
    · exact fun c hc => hdigits c (List.mem_of_mem_drop hc)
    · rw [String.toList_append, String.toList_append, String.toList_ofList, String.toList_ofList,
        String.toList_ofList, List.append_assoc, FloatParts.chars, FloatParts.tail, List.append_nil,
        List.singleton_append]
    · intro neg
      have hplaces : (none : Option Int).getD 0 -
          (padded.drop (padded.length - (-d.exponent).toNat)).length = d.exponent := by
        rw [Option.getD_none, List.length_drop]
        omega
      simp only [FloatParts.value, List.take_append_drop, hvalue, hplaces]

lemma exists_spells_exponent (hd : d.digits ≠ 0) : ∃ p, Spells p (exponentText d) d := by
  obtain ⟨c, cs, hcs⟩ := List.exists_cons_of_ne_nil (Nat.toDigits_ne_nil (b := 10) (n := d.digits))
  have hdigits := Numeral.isDigit_of_mem_toDigits d.digits
  have hvalue := ofDigitChars_zeros d.digits
  rw [hcs] at hdigits hvalue
  rw [List.forall_mem_cons] at hdigits
  have hfirst : ∀ c' ∈ [c], c'.isDigit := List.forall_mem_singleton.2 hdigits.1
  unfold exponentText
  rw [hcs]
  dsimp only
  rw [List.length_cons, Nat.add_sub_cancel, List.drop_one, List.tail_cons]
  cases cs with
  | nil =>
    refine ⟨⟨[c], ['0'], some d.exponent⟩, ⟨List.cons_ne_nil _ _, hfirst, isDigit_of_mem_replicate 1⟩, ?_, ?_⟩
    · rw [List.length_nil, if_pos (Nat.le_refl _), Int.natCast_zero, Int.add_zero]
      simp only [String.toList_append, String.toList_ofList, FloatParts.chars, FloatParts.tail]
      rfl
    · intro neg
      have hone : Nat.ofDigitChars 10 ([c] ++ ['0']) 0 = d.digits * 10 ^ 1 := hvalue 1
      have hsum : d.exponent - (['0'] : List Char).length + (1 : Nat) = d.exponent := by
        rw [List.length_singleton]
        omega
      show ofDecimal neg (Nat.ofDigitChars 10 ([c] ++ ['0']) 0) (d.exponent - (['0'] : List Char).length) = _
      rw [hone, ofDecimal_mul_pow neg hd, hsum]
  | cons c' cs =>
    refine ⟨⟨[c], c' :: cs, some (d.exponent + (c' :: cs).length)⟩, ⟨List.cons_ne_nil _ _, hfirst, hdigits.2⟩, ?_, ?_⟩
    · rw [if_neg (by rw [List.length_cons]; omega)]
      simp only [String.toList_append, String.toList_ofList, FloatParts.chars, FloatParts.tail]
      simp
    · intro neg
      have hzero := hvalue 0
      rw [List.replicate_zero, List.append_nil, Nat.pow_zero, Nat.mul_one] at hzero
      have hsum : d.exponent + (c' :: cs).length - (c' :: cs).length = d.exponent := by omega
      show ofDecimal neg (Nat.ofDigitChars 10 (c :: c' :: cs) 0)
        (d.exponent + (c' :: cs).length - (c' :: cs).length) = _
      rw [hzero, hsum]

end Parts

/-- The text of a finite double is made up of a sign and parts that stand for it. -/
lemma exists_parts {x : Binary64} (h : x.isFinite) :
    ∃ p : FloatParts, p.Valid ∧ x.toText.toList = Token.sign x.negative ++ p.chars ∧ p.value x.negative = x := by
  have hfinite : x.exponentField ≠ 2047 := Nat.ne_of_lt (of_decide_eq_true h)
  have hsign : (if x.negative then "-" else "").toList = Token.sign x.negative := by
    cases x.negative
    · rfl
    · rfl
  unfold toText
  simp only [isNaN, isInfinite, hfinite, decide_false, Bool.false_and, Bool.false_eq_true, if_false]
  by_cases hunits : x.units = 0
  · refine ⟨⟨['0'], ['0'], none⟩, ⟨List.cons_ne_nil _ _, List.all_eq_true.1 rfl, List.all_eq_true.1 rfl⟩, ?_, ?_⟩
    · rw [if_pos hunits, String.toList_append, hsign]
      rfl
    · have hmod := (units_eq_zero_iff x).1 hunits
      have hx := ofMagnitude_negative x
      rw [hmod] at hx
      exact hx
  · rw [if_neg hunits]
    have hd := digits_shortest_ne_zero h hunits
    have hspells : ∃ p, Spells p (if isPlain (shortest x.abs) then plainText (shortest x.abs)
        else exponentText (shortest x.abs)) (shortest x.abs) := by
      split
      · exact exists_spells_plain hd
      · exact exists_spells_exponent hd
    obtain ⟨p, hp, htext, hvalue⟩ := hspells
    refine ⟨p, hp, ?_, ?_⟩
    · rw [String.toList_append, hsign, ← htext]
      rfl
    · rw [hvalue, ofDecimal_shortest h hunits]

lemma open_toText {x : Binary64} (h : x.isFinite) : Token.Open x.toText [.float x.toText] := by
  obtain ⟨p, hp, htext, -⟩ := exists_parts h
  exact Token.open_float hp htext

lemma float?_toText {x : Binary64} (h : x.isFinite) : Literal.float? x.toText.toList = some x := by
  obtain ⟨p, hp, htext, hvalue⟩ := exists_parts h
  rw [htext, Literal.float?_sign hp, hvalue]

end Binary64

end BlockIR
