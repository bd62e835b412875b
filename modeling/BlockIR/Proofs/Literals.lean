import BlockIR.Literal
import Mathlib.Algebra.Group.Nat.Defs
import Mathlib.Data.List.Basic
import Mathlib.Data.Nat.Digits.Defs
import Mathlib.Tactic.Common

/-!
# What literals spell

Which spellings of literals are valid: numbers in range, floats with a complete exponent, and strings
without unknown escapes. The converters accept exactly these, and give what the spellings say.
-/

namespace BlockIR

section Stops

variable {p : Char → Bool} {cs rest : List Char}

lemma takeWhile_append_of_head (hcs : ∀ d ∈ cs, p d) (hrest : ∀ d ∈ rest.head?, p d = false) :
    (cs ++ rest).takeWhile p = cs := by
  rw [List.takeWhile_append_of_pos hcs]
  cases rest with
  | nil => rw [List.takeWhile_nil, List.append_nil]
  | cons d rest =>
    have hd : p d = false := hrest d rfl
    rw [List.takeWhile_cons, hd]
    simp only [Bool.false_eq_true, if_false, List.append_nil]

lemma dropWhile_append_of_head (hcs : ∀ d ∈ cs, p d) (hrest : ∀ d ∈ rest.head?, p d = false) :
    (cs ++ rest).dropWhile p = rest := by
  rw [List.dropWhile_append_of_pos hcs]
  cases rest with
  | nil => rfl
  | cons d rest =>
    have hd : p d = false := hrest d rfl
    rw [List.dropWhile_cons, hd, if_neg Bool.false_ne_true]

end Stops

namespace Numeral

variable {radix n : Nat} {ds : List Char}

/-- One or more digits of a radix. -/
def IsRun (radix : Nat) (ds : List Char) : Prop := ds ≠ [] ∧ ∀ c ∈ ds, (digit? radix c).isSome

/-- The number that digits stand for. -/
def value (radix : Nat) (ds : List Char) : Nat :=
  ds.foldl (fun n c => n * radix + (digit? radix c).getD 0) 0

lemma extend?_eq_some_iff {k : Nat} : extend? radix k ds = some n ↔
    (∀ c ∈ ds, (digit? radix c).isSome) ∧ ds.foldl (fun n c => n * radix + (digit? radix c).getD 0) k = n := by
  induction ds generalizing k with
  | nil =>
    rw [extend?, Option.some.injEq, List.foldl_nil]
    exact (and_iff_right (List.forall_mem_nil _)).symm
  | cons c ds ih =>
    rw [extend?, List.forall_mem_cons, List.foldl_cons]
    cases digit? radix c with
    | none => simp only [Option.bind_none, reduceCtorEq, Option.isSome_none, Bool.false_eq_true, false_and]
    | some d => simp only [Option.bind_some, ih, Option.isSome_some, true_and, Option.getD_some]

lemma value?_eq_some_iff : value? radix ds = some n ↔ IsRun radix ds ∧ value radix ds = n := by
  cases ds with
  | nil => simp only [value?, reduceCtorEq, IsRun, ne_eq, not_true_eq_false, false_and]
  | cons c ds =>
    simp only [value?, extend?_eq_some_iff, IsRun, ne_eq, reduceCtorEq, not_false_eq_true, true_and, value]

lemma digit?_of_isDigit {c : Char} (h : c.isDigit) : digit? 10 c = some (c.toNat - '0'.toNat) := by
  simp only [Char.isDigit, Bool.and_eq_true, decide_eq_true_eq, ge_iff_le] at h
  have hdigit : '0' ≤ c ∧ c ≤ '9' := h
  have hvalue : c.toNat - '0'.toNat < 10 := by
    have hle : c.val.toNat ≤ '9'.val.toNat := UInt32.le_iff_toNat_le.1 h.2
    have hnine : '9'.val.toNat = 57 := rfl
    have hzero : '0'.toNat = 48 := rfl
    have hc : c.toNat = c.val.toNat := rfl
    omega
  simp only [digit?, hdigit, and_self, if_true, Option.filter_some, hvalue, decide_true]

lemma isSome_digit?_ten_iff {c : Char} : (digit? 10 c).isSome ↔ c.isDigit := by
  constructor
  · intro h
    have hlower : ¬ c.toNat - 'a'.toNat + 10 < 10 := by omega
    have hupper : ¬ c.toNat - 'A'.toNat + 10 < 10 := by omega
    unfold digit? at h
    split at h
    · next hdigit =>
      simp only [Char.isDigit, Bool.and_eq_true, decide_eq_true_eq, ge_iff_le]
      exact hdigit
    · split at h
      · simp only [Option.filter_some, hlower, decide_false, Bool.false_eq_true, if_false, Option.isSome_none] at h
      · split at h
        · simp only [Option.filter_some, hupper, decide_false, Bool.false_eq_true, if_false, Option.isSome_none] at h
        · cases h
  · intro h
    rw [digit?_of_isDigit h]
    rfl

lemma isRun_ten_iff : IsRun 10 ds ↔ ds ≠ [] ∧ ∀ c ∈ ds, c.isDigit := by
  simp only [IsRun, isSome_digit?_ten_iff]

/-- The value of a digit is its place among the digits, in either case. -/
def digitValue (c : Char) : Nat := "0123456789abcdef".toList.idxOf c.toLower

/-- The number that digits spell. The last one counts the ones. -/
def spelled (radix : Nat) (ds : List Char) : Nat := Nat.ofDigits radix (ds.reverse.map digitValue)

section Digits

variable {radix : Nat} {ds : List Char} (hradix : radix ∈ [2, 8, 10, 16])

lemma digit?_ofNat : ∀ n < 128, ∀ radix ∈ [2, 8, 10, 16], digit? radix (Char.ofNat n) =
    if digitValue (Char.ofNat n) < radix then some (digitValue (Char.ofNat n)) else none := by
  decide +kernel

include hradix

lemma digit?_eq (c : Char) : digit? radix c = if digitValue c < radix then some (digitValue c) else none := by
  by_cases hc : c.toNat < 128
  · have h := digit?_ofNat c.toNat hc radix hradix
    rwa [Char.ofNat_toNat] at h
  · -- All digits are among the first 128 characters.
    have hle (d : Char) (hd : d.toNat < 128) : ¬ c ≤ d := by
      intro h
      have hnat : c.toNat ≤ d.toNat := h
      omega
    have hlower : c.toLower = c := dif_neg fun h => hle 'Z' (by decide) h.2
    have hmem : c ∉ "0123456789abcdef".toList := by
      intro h
      have hall : "0123456789abcdef".toList.all (·.toNat < 128) := by decide
      exact hc (of_decide_eq_true (List.all_eq_true.1 hall c h))
    have hvalue : ¬ digitValue c < radix := by
      rw [digitValue, hlower, List.idxOf_eq_length hmem]
      have hall : ∀ r ∈ [2, 8, 10, 16], ¬ "0123456789abcdef".toList.length < r := by decide
      exact hall radix hradix
    rw [if_neg hvalue, digit?, if_neg fun h => hle '9' (by decide) h.2, if_neg fun h => hle 'z' (by decide) h.2,
      if_neg fun h => hle 'Z' (by decide) h.2]
    rfl

lemma isSome_digit?_iff {c : Char} : (digit? radix c).isSome ↔ digitValue c < radix := by
  rw [digit?_eq hradix]
  split_ifs with h
  · exact iff_of_true rfl h
  · exact iff_of_false Bool.false_ne_true h

lemma isRun_iff : IsRun radix ds ↔ ds ≠ [] ∧ ∀ c ∈ ds, digitValue c < radix := by
  simp only [IsRun, isSome_digit?_iff hradix]

lemma value_eq_spelled (h : ∀ c ∈ ds, digitValue c < radix) : value radix ds = spelled radix ds := by
  rw [spelled, Nat.ofDigits_eq_foldr, List.foldr_map, List.foldr_reverse, value]
  refine List.foldl_ext _ _ _ fun n c hc => ?_
  rw [digit?_eq hradix, if_pos (h c hc), Option.getD_some, Nat.mul_comm n, Nat.add_comm]
  rfl

end Digits

end Numeral

namespace Literal

/-- The marks of the radices other than ten. -/
def radixMarks : List (Char × Nat) := [('x', 16), ('b', 2), ('o', 8)]

/-- The radix of a number without a sign: ten, unless it begins with a zero and a mark. -/
def radixOf : List Char → Nat
  | '0' :: mark :: _ => (radixMarks.lookup mark).getD 10
  | _ => 10

/-- The digits of a number without a sign. -/
def digitsOf (w : List Char) : List Char := if radixOf w = 10 then w else w.drop 2

/-- The number that a literal without a sign spells. -/
def numberOf (w : List Char) : Nat := Numeral.spelled (radixOf w) (digitsOf w)

/-- The number that a literal spells, with a minus sign or without one. -/
def integerOf : List Char → Int
  | '-' :: w => -numberOf w
  | w => numberOf w

/-- A number without a sign that is below a bound: it has digits, and they are digits of its radix. -/
def IsBelow (bound : Nat) (w : List Char) : Prop :=
  digitsOf w ≠ [] ∧ (∀ c ∈ digitsOf w, Numeral.digitValue c < radixOf w) ∧ numberOf w < bound

/-- A decimal number is in the range of signed 64-bit numbers; with a radix mark it is any 64 bits. -/
def IsInt : List Char → Prop
  | '-' :: w => IsBelow (2 ^ 63 + 1) w
  | w => IsBelow (if radixOf w = 10 then 2 ^ 63 else 2 ^ 64) w

/-- The last character is the `u`. -/
def IsUint (w : List Char) : Prop := IsBelow (2 ^ 64) w.dropLast

/-- One or more decimal digits. -/
def AreDigits (ds : List Char) : Prop := ds ≠ [] ∧ ∀ c ∈ ds, c.isDigit

/-- No exponent, or one with digits. -/
def IsExponent (w : List Char) : Prop := w = [] ∨ ∃ ds, AreDigits ds ∧ (w = 'e' :: ds ∨ w = 'e' :: '-' :: ds)

/-- Digits around a point, at least one of them, and then perhaps an exponent. -/
def IsMagnitude (w : List Char) : Prop :=
  ∃ whole places exponent, w = whole ++ '.' :: (places ++ exponent) ∧ AreDigits (whole ++ places) ∧
    IsExponent exponent

def IsFloat : List Char → Prop
  | '-' :: w => IsMagnitude w
  | w => IsMagnitude w

/-- The number that the digits of a float spell without its point, and the power of ten that it is multiplied
with. -/
def decimalOf (w : List Char) : Nat × Int :=
  let mantissa := w.takeWhile (· ≠ 'e')
  let places := (mantissa.dropWhile (· ≠ '.')).tail
  (Numeral.spelled 10 (mantissa.filter Char.isDigit), integerOf (w.dropWhile (· ≠ 'e')).tail - places.length)

/-- The double nearest to the decimal that a float spells. -/
def doubleOf (w : List Char) : Binary64 := .ofDecimal (w.head? = some '-') (decimalOf w).1 (decimalOf w).2

variable {w : List Char}

lemma radixOf_mem (w : List Char) : radixOf w ∈ [2, 8, 10, 16] := by
  unfold radixOf
  split
  · next mark _ =>
    cases h : radixMarks.lookup mark with
    | none => decide
    | some radix =>
      have hall : ∀ e ∈ radixMarks, e.2 ∈ [2, 8, 10, 16] := by decide
      obtain ⟨before, after, hmarks, -⟩ := List.lookup_eq_some_iff.1 h
      exact hall (mark, radix) (hmarks ▸ List.mem_append_right before List.mem_cons_self)
  · decide

lemma radixAndDigits_eq_radixOf_digitsOf (w : List Char) : radixAndDigits w = (radixOf w, digitsOf w) := by
  unfold radixAndDigits
  split
  · rfl
  · rfl
  · rfl
  · next hx hb ho =>
    have hradix : radixOf w = 10 := by
      unfold radixOf
      split
      · next mark ds =>
        have hnone : radixMarks.lookup mark = none := by
          refine List.lookup_eq_none_iff.2 ?_
          simp only [radixMarks, List.forall_mem_cons, List.not_mem_nil, false_imp_iff, implies_true, and_true,
            bne_iff_ne, ne_eq]
          exact ⟨fun h => hx ds (h ▸ rfl), fun h => hb ds (h ▸ rfl), fun h => ho ds (h ▸ rfl)⟩
        rw [hnone, Option.getD_none]
      · rfl
    rw [digitsOf, if_pos hradix, hradix]

lemma magnitude?_eq_some_iff {n : Nat} : magnitude? w = some n ↔ IsBelow (2 ^ 64) w ∧ numberOf w = n := by
  have hsize : UInt64.size = 2 ^ 64 := rfl
  have hradix := radixOf_mem w
  rw [magnitude?, radixAndDigits_eq_radixOf_digitsOf]
  simp only [Numeral.below?, Option.filter_eq_some_iff, Numeral.value?_eq_some_iff, hsize, decide_eq_true_eq,
    Numeral.isRun_iff hradix, IsBelow, numberOf]
  constructor
  · rintro ⟨⟨⟨hne, hdigits⟩, rfl⟩, hlt⟩
    rw [Numeral.value_eq_spelled hradix hdigits] at hlt ⊢
    exact ⟨⟨hne, hdigits, hlt⟩, rfl⟩
  · rintro ⟨⟨hne, hdigits, hlt⟩, rfl⟩
    rw [← Numeral.value_eq_spelled hradix hdigits] at hlt ⊢
    exact ⟨⟨⟨hne, hdigits⟩, rfl⟩, hlt⟩

lemma isBelow_iff (bound : Nat) (hbound : bound ≤ 2 ^ 64) :
    IsBelow bound w ↔ IsBelow (2 ^ 64) w ∧ numberOf w < bound := by
  constructor
  · rintro ⟨hne, hdigits, hlt⟩
    exact ⟨⟨hne, hdigits, Nat.lt_of_lt_of_le hlt hbound⟩, hlt⟩
  · rintro ⟨⟨hne, hdigits, -⟩, hlt⟩
    exact ⟨hne, hdigits, hlt⟩

lemma int?_eq_some_iff {v : Int64} : int? w = some v ↔ IsInt w ∧ .ofInt (integerOf w) = v := by
  have hhalf : UInt64.size / 2 = 2 ^ 63 := rfl
  by_cases hneg : ∃ ds, w = '-' :: ds
  · obtain ⟨ds, rfl⟩ := hneg
    simp only [int?, IsInt, integerOf, isBelow_iff (2 ^ 63 + 1) (by decide), Option.bind_eq_some_iff,
      magnitude?_eq_some_iff, Option.ite_none_right_eq_some, Option.some.injEq, hhalf, Nat.lt_succ_iff]
    constructor
    · rintro ⟨_, ⟨hbelow, rfl⟩, hle, rfl⟩
      exact ⟨⟨hbelow, hle⟩, rfl⟩
    · rintro ⟨⟨hbelow, hle⟩, rfl⟩
      exact ⟨_, ⟨hbelow, rfl⟩, hle, rfl⟩
  · have hne : ∀ ds, w = '-' :: ds → False := fun ds h => hneg ⟨ds, h⟩
    have hword : ∀ n : Nat, (UInt64.ofNat n).toInt64 = .ofInt n := fun n => by
      rw [UInt64.toInt64_ofNat', Int64.ofInt_eq_ofNat]
    rw [int?.eq_2 _ hne, IsInt.eq_2 _ hne, integerOf.eq_2 _ hne]
    by_cases hradix : radixOf w = 10
    · simp only [radixAndDigits_eq_radixOf_digitsOf, hradix, ne_eq, not_true_eq_false, if_false, if_true, hhalf,
        isBelow_iff (2 ^ 63) (by decide), Option.bind_eq_some_iff, magnitude?_eq_some_iff,
        Option.ite_none_right_eq_some, Option.some.injEq]
      constructor
      · rintro ⟨_, ⟨hbelow, rfl⟩, hlt, rfl⟩
        exact ⟨⟨hbelow, hlt⟩, rfl⟩
      · rintro ⟨⟨hbelow, hlt⟩, rfl⟩
        exact ⟨_, ⟨hbelow, rfl⟩, hlt, rfl⟩
    · simp only [radixAndDigits_eq_radixOf_digitsOf, hradix, ne_eq, not_false_eq_true, if_true, if_false, hword,
        Option.bind_eq_some_iff, magnitude?_eq_some_iff, Option.some.injEq]
      constructor
      · rintro ⟨_, ⟨hbelow, rfl⟩, rfl⟩
        exact ⟨hbelow, rfl⟩
      · rintro ⟨hbelow, rfl⟩
        exact ⟨_, ⟨hbelow, rfl⟩, rfl⟩

lemma uint?_eq_some_iff {v : UInt64} : uint? w = some v ↔ IsUint w ∧ .ofNat (numberOf w.dropLast) = v := by
  simp only [uint?, Option.map_eq_some_iff, magnitude?_eq_some_iff, IsUint]
  constructor
  · rintro ⟨_, ⟨hbelow, rfl⟩, rfl⟩
    exact ⟨hbelow, rfl⟩
  · rintro ⟨hbelow, rfl⟩
    exact ⟨_, ⟨hbelow, rfl⟩, rfl⟩

section Decimals

variable {ds : List Char}

lemma radixOf_of_isDigit (h : ∀ c ∈ ds, c.isDigit) : radixOf ds = 10 := by
  unfold radixOf
  split
  · next mark ds =>
    have hmark : mark.isDigit := h mark (List.mem_cons_of_mem _ List.mem_cons_self)
    have hnone : radixMarks.lookup mark = none := by
      refine List.lookup_eq_none_iff.2 fun e he => bne_iff_ne.2 ?_
      rintro rfl
      have hall : ∀ e ∈ radixMarks, ¬ e.1.isDigit := by decide
      exact hall e he hmark
    rw [hnone, Option.getD_none]
  · rfl

lemma radixAndDigits_eq (h : ∀ c ∈ ds, c.isDigit) : radixAndDigits ds = (10, ds) := by
  rw [radixAndDigits_eq_radixOf_digitsOf, digitsOf, radixOf_of_isDigit h, if_pos rfl]

lemma numberOf_of_isDigit (h : ∀ c ∈ ds, c.isDigit) : numberOf ds = Numeral.spelled 10 ds := by
  rw [numberOf, digitsOf, radixOf_of_isDigit h, if_pos rfl]

lemma value?_ten_eq_some_iff {n : Nat} :
    Numeral.value? 10 ds = some n ↔ AreDigits ds ∧ Numeral.spelled 10 ds = n := by
  have hradix : 10 ∈ [2, 8, 10, 16] := by decide
  rw [Numeral.value?_eq_some_iff, AreDigits, ← Numeral.isRun_ten_iff]
  refine and_congr_right fun hrun => ?_
  rw [Numeral.value_eq_spelled hradix ((Numeral.isRun_iff hradix).1 hrun).2]

lemma not_areDigits_minus : ¬ AreDigits ('-' :: ds) := fun h =>
  absurd (h.2 '-' List.mem_cons_self) (by decide)

lemma integerOf_of_areDigits (h : AreDigits ds) : integerOf ds = Numeral.spelled 10 ds := by
  rw [integerOf.eq_2, numberOf_of_isDigit h.2]
  rintro ds' rfl
  exact not_areDigits_minus h

lemma integerOf_minus (h : AreDigits ds) : integerOf ('-' :: ds) = -(Numeral.spelled 10 ds : Int) := by
  rw [integerOf, numberOf_of_isDigit h.2]

lemma exponent?_eq_some_iff {e : Int} : exponent? w = some e ↔ IsExponent w ∧ integerOf w.tail = e := by
  have hcast (o : Option Nat) (k : Int) :
      (do let n ← o; pure (n : Int)) = some k ↔ ∃ n, o = some n ∧ (n : Int) = k := by
    simp only [Option.bind_eq_bind, Option.pure_def, Option.bind_eq_some_iff, Option.some.injEq]
  unfold exponent? IsExponent
  split
  · simp only [Option.some.injEq, true_or, true_and]
    rfl
  · next ds =>
    simp only [Option.map_eq_some_iff, hcast, value?_ten_eq_some_iff, List.tail_cons]
    constructor
    · rintro ⟨_, ⟨_, ⟨hds, rfl⟩, rfl⟩, rfl⟩
      exact ⟨.inr ⟨ds, hds, .inr rfl⟩, integerOf_minus hds⟩
    · rintro ⟨hw | ⟨ds', hds, hw | hw⟩, rfl⟩
      · cases hw
      · cases hw
        exact absurd hds not_areDigits_minus
      · cases hw
        exact ⟨_, ⟨_, ⟨hds, rfl⟩, rfl⟩, (integerOf_minus hds).symm⟩
  · next ds hminus =>
    simp only [Option.map_eq_some_iff, hcast, value?_ten_eq_some_iff, List.tail_cons]
    constructor
    · rintro ⟨_, ⟨_, ⟨hds, rfl⟩, rfl⟩, rfl⟩
      exact ⟨.inr ⟨ds, hds, .inl rfl⟩, integerOf_of_areDigits hds⟩
    · rintro ⟨hw | ⟨ds', hds, hw | hw⟩, rfl⟩
      · cases hw
      · cases hw
        exact ⟨_, ⟨_, ⟨hds, rfl⟩, rfl⟩, (integerOf_of_areDigits hds).symm⟩
      · exact absurd (List.tail_eq_of_cons_eq hw) (hminus ds')
  · next hnil hminus he =>
    refine iff_of_false nofun ?_
    rintro ⟨h | ⟨ds, -, hw | hw⟩, -⟩
    · exact hnil h
    · exact he ds hw
    · exact hminus ds hw

end Decimals

section Floats

variable {whole places exponent : List Char}

lemma head_of_isExponent (h : IsExponent exponent) : ∀ c ∈ exponent.head?, c = 'e' := by
  rintro c hc
  rcases h with rfl | ⟨ds, -, rfl | rfl⟩ <;> cases hc
  · rfl
  · rfl

/-- A float without a sign is taken apart at its point and at its `e`. -/
lemma decimalOf_parts (hdigits : ∀ c ∈ whole ++ places, c.isDigit) (h : IsExponent exponent) :
    decimalOf (whole ++ '.' :: (places ++ exponent)) =
      (Numeral.spelled 10 (whole ++ places), integerOf exponent.tail - places.length) := by
  have hne {c d : Char} (hd : d.isDigit = false) (hc : c.isDigit) : decide (c ≠ d) = true := by
    refine decide_eq_true ?_
    rintro rfl
    rw [hd] at hc
    cases hc
  have hmantissa : ∀ c ∈ whole ++ '.' :: places, decide (c ≠ 'e') = true := by
    rw [List.forall_mem_append, List.forall_mem_cons]
    exact ⟨fun c hc => hne rfl (hdigits c (List.mem_append_left _ hc)), rfl,
      fun c hc => hne rfl (hdigits c (List.mem_append_right _ hc))⟩
  have hexponent : ∀ c ∈ exponent.head?, decide (c ≠ 'e') = false := fun c hc =>
    decide_eq_false (not_not_intro (head_of_isExponent h c hc))
  have hpoint : (whole ++ '.' :: places).dropWhile (· ≠ '.') = '.' :: places := by
    refine dropWhile_append_of_head (fun c hc => hne rfl (hdigits c (List.mem_append_left _ hc))) ?_
    rintro c hc
    cases hc
    rfl
  have hfilter : (whole ++ '.' :: places).filter Char.isDigit = whole ++ places := by
    rw [List.filter_append, List.filter_cons_of_neg (by decide), ← List.filter_append, List.filter_eq_self.2 hdigits]
  have hparts : whole ++ '.' :: (places ++ exponent) = whole ++ '.' :: places ++ exponent := by
    rw [List.append_assoc, List.cons_append]
  rw [decimalOf, hparts, takeWhile_append_of_head hmantissa hexponent, dropWhile_append_of_head hmantissa hexponent,
    hpoint, hfilter, List.tail_cons]

lemma decimalOf_minus (w : List Char) : decimalOf ('-' :: w) = decimalOf w := by
  have htake : ('-' :: w).takeWhile (· ≠ 'e') = '-' :: w.takeWhile (· ≠ 'e') := List.takeWhile_cons_of_pos rfl
  have hdrop : ('-' :: w).dropWhile (· ≠ 'e') = w.dropWhile (· ≠ 'e') := List.dropWhile_cons_of_pos rfl
  rw [decimalOf, decimalOf, htake, hdrop, List.dropWhile_cons_of_pos rfl, List.filter_cons_of_neg (by decide)]

lemma magnitudeFloat?_eq_some_iff {negative : Bool} {x : Binary64} : magnitudeFloat? negative w = some x ↔
    IsMagnitude w ∧ .ofDecimal negative (decimalOf w).1 (decimalOf w).2 = x := by
  constructor
  · intro h
    unfold magnitudeFloat? at h
    dsimp only at h
    split at h
    · next cs hcs =>
      obtain ⟨n, hn, h⟩ := Option.bind_eq_some_iff.1 h
      obtain ⟨e, he, h⟩ := Option.bind_eq_some_iff.1 h
      obtain ⟨hdigits, rfl⟩ := value?_ten_eq_some_iff.1 hn
      obtain ⟨hexponent, rfl⟩ := exponent?_eq_some_iff.1 he
      have hwhole := List.prefix_iff_eq_append.1 (List.takeWhile_prefix Char.isDigit (l := w))
      have hplaces := List.prefix_iff_eq_append.1 (List.takeWhile_prefix Char.isDigit (l := cs))
      rw [hcs, ← hplaces] at hwhole
      refine ⟨⟨_, _, _, hwhole.symm, hdigits, hexponent⟩, ?_⟩
      rw [← hwhole, decimalOf_parts hdigits.2 hexponent]
      exact Option.some.inj h
    · cases h
  · rintro ⟨⟨whole, places, exponent, rfl, hdigits, hexponent⟩, rfl⟩
    have hall := hdigits.2
    rw [List.forall_mem_append] at hall
    have hwhole : (whole ++ '.' :: (places ++ exponent)).takeWhile Char.isDigit = whole := by
      refine takeWhile_append_of_head hall.1 ?_
      rintro c hc
      cases hc
      rfl
    have hplaces : (places ++ exponent).takeWhile Char.isDigit = places := by
      refine takeWhile_append_of_head hall.2 fun c hc => ?_
      rw [head_of_isExponent hexponent c hc]
      rfl
    rw [decimalOf_parts hdigits.2 hexponent]
    unfold magnitudeFloat?
    simp only [hwhole, List.drop_left, hplaces, value?_ten_eq_some_iff.2 ⟨hdigits, rfl⟩,
      exponent?_eq_some_iff.2 ⟨hexponent, rfl⟩]
    rfl

lemma float?_eq_some_iff {x : Binary64} : float? w = some x ↔ IsFloat w ∧ doubleOf w = x := by
  by_cases hneg : ∃ ds, w = '-' :: ds
  · obtain ⟨ds, rfl⟩ := hneg
    rw [float?, IsFloat, magnitudeFloat?_eq_some_iff, doubleOf, decimalOf_minus]
    rfl
  · have hne : ∀ ds, w = '-' :: ds → False := fun ds h => hneg ⟨ds, h⟩
    have hhead : decide (w.head? = some '-') = false := by
      refine decide_eq_false fun h => ?_
      obtain ⟨ds, hds⟩ := List.head?_eq_some_iff.1 h
      exact hne ds hds
    rw [float?.eq_2 _ hne, IsFloat.eq_2 _ hne, magnitudeFloat?_eq_some_iff, doubleOf, hhead]

end Floats

end Literal

namespace Quoted

/-- Every backslash is followed by a mark that stands for a character. -/
inductive IsText : List Char → Prop
  | nil : IsText []
  | char {c : Char} {cs : List Char} (hc : c ≠ '\\') (h : IsText cs) : IsText (c :: cs)
  | escape {m : Char} {cs : List Char} (hm : m ∈ ['\\', '"', 'n', 't', '0']) (h : IsText cs) :
      IsText ('\\' :: m :: cs)

/-- The marks after a backslash, and the characters that they stand for. -/
def escapes : List (Char × Char) := [('\\', '\\'), ('"', '"'), ('n', '\n'), ('t', '\t'), ('0', '\x00')]

/-- What a quoted text stands for. -/
def plain : List Char → List Char
  | '\\' :: m :: cs => (escapes.lookup m).getD m :: plain cs
  | c :: cs => c :: plain cs
  | [] => []

lemma marked?_eq_lookup (m : Char) : marked? m = escapes.lookup m := by
  unfold marked?
  split
  · rfl
  · rfl
  · rfl
  · rfl
  · rfl
  · next h₁ h₂ h₃ h₄ h₅ =>
    refine (List.lookup_eq_none_iff.2 ?_).symm
    simp only [escapes, List.forall_mem_cons, List.not_mem_nil, false_imp_iff, implies_true, and_true, bne_iff_ne,
      ne_eq]
    exact ⟨h₁, h₂, h₃, h₄, h₅⟩

lemma isSome_marked?_iff {m : Char} : (marked? m).isSome ↔ m ∈ ['\\', '"', 'n', 't', '0'] := by
  unfold marked?
  split <;> simp_all

lemma plain_cons {c : Char} {cs : List Char} (hc : c ≠ '\\') : plain (c :: cs) = c :: plain cs := by
  rw [plain]
  rintro m cs' rfl
  exact absurd rfl hc

lemma isText_cons_iff {c : Char} {cs : List Char} (hc : c ≠ '\\') : IsText (c :: cs) ↔ IsText cs := by
  constructor
  · intro h
    cases h with
    | char hc' h => exact h
    | escape hm h => exact absurd rfl hc
  · exact .char hc

lemma isText_escape_iff {m : Char} {cs : List Char} :
    IsText ('\\' :: m :: cs) ↔ m ∈ ['\\', '"', 'n', 't', '0'] ∧ IsText cs := by
  constructor
  · intro h
    cases h with
    | char hc h => exact absurd rfl hc
    | escape hm h => exact ⟨hm, h⟩
  · rintro ⟨hm, h⟩
    exact .escape hm h

lemma not_isText_backslash : ¬ IsText ['\\'] := by
  intro h
  cases h with
  | char hc h => exact hc rfl

lemma decodeOnto_eq_some_iff {done cs ds : List Char} :
    decodeOnto done cs = some ds ↔ IsText cs ∧ done.reverse ++ plain cs = ds := by
  have hpush (c : Char) (done cs : List Char) : (c :: done).reverse ++ cs = done.reverse ++ c :: cs := by
    rw [List.reverse_cons, List.append_assoc, List.singleton_append]
  fun_induction decodeOnto done cs with
  | case1 done => simp only [IsText.nil, plain, List.append_nil, Option.some.injEq, true_and]
  | case2 done => exact iff_of_false nofun fun h => not_isText_backslash h.1
  | case3 done m cs c hm ih =>
    have hmark := isSome_marked?_iff.1 (Option.isSome_iff_exists.2 ⟨c, hm⟩)
    refine ih.trans ?_
    rw [isText_escape_iff, and_iff_right hmark, plain, ← marked?_eq_lookup, hm, Option.getD_some, hpush]
  | case4 done m cs hm =>
    refine iff_of_false nofun fun h => ?_
    have hmark := isSome_marked?_iff.2 (isText_escape_iff.1 h.1).1
    rw [hm] at hmark
    cases hmark
  | case5 done c cs hlast hescape ih =>
    have hc : c ≠ '\\' := by
      rintro rfl
      cases cs with
      | nil => exact hlast rfl rfl
      | cons m cs => exact hescape m cs rfl rfl
    refine ih.trans ?_
    rw [isText_cons_iff hc, plain_cons hc, hpush]

lemma decode?_eq_some_iff {cs ds : List Char} : decode? cs = some ds ↔ IsText cs ∧ plain cs = ds :=
  decodeOnto_eq_some_iff

end Quoted

lemma Literal.str?_eq_some_iff {w : List Char} {s : String} :
    str? w = some s ↔ Quoted.IsText w ∧ .ofList (Quoted.plain w) = s := by
  simp only [str?, Option.map_eq_some_iff, Quoted.decode?_eq_some_iff]
  constructor
  · rintro ⟨_, ⟨htext, rfl⟩, rfl⟩
    exact ⟨htext, rfl⟩
  · rintro ⟨htext, rfl⟩
    exact ⟨_, ⟨htext, rfl⟩, rfl⟩

end BlockIR
