import BlockIR.Binary64.Shortest
import Mathlib.Tactic.Common
import Mathlib.Tactic.Ring

/-!
# Shortest decimals read back

Rounding depends only on the ratio that is rounded, so a decimal may trade trailing zeros for its
exponent, and it leaves a number of units alone that a double has. The shortest decimal of a finite
double is therefore read back as that double, also when no short one was found.
-/

namespace BlockIR.Binary64

section Fields

variable (x : Binary64)

lemma leadingBit_eq : leadingBit = 4503599627370496 := rfl

lemma signBit_eq : signBit = 9223372036854775808 := rfl

lemma fraction_lt : x.fraction < leadingBit := Nat.mod_lt _ (by decide)

lemma mod_signBit_eq : x.bits.toNat % signBit = x.exponentField * leadingBit + x.fraction := by
  rw [exponentField, fraction, leadingBit_eq, signBit_eq]
  omega

lemma ofMagnitude_negative : ofMagnitude x.negative (x.bits.toNat % signBit) = x := by
  have hbits : (if x.negative = true then signBit + x.bits.toNat % signBit else x.bits.toNat % signBit) =
      x.bits.toNat := by
    have hlt : x.bits.toNat < 18446744073709551616 := x.bits.toNat_lt
    cases hneg : x.negative with
    | true =>
      have hle : signBit ≤ x.bits.toNat := of_decide_eq_true hneg
      rw [signBit_eq] at hle ⊢
      rw [if_pos rfl]
      omega
    | false =>
      have hgt : ¬ signBit ≤ x.bits.toNat := of_decide_eq_false hneg
      rw [signBit_eq] at hgt ⊢
      rw [if_neg Bool.false_ne_true]
      omega
  rw [ofMagnitude, hbits, UInt64.ofNat_toNat]

section Magnitude

variable {magnitude : Nat}

lemma infinityBits_eq : infinityBits = 9218868437227405312 := rfl

lemma toNat_ofMagnitude (negative : Bool) (h : magnitude < signBit) :
    (ofMagnitude negative magnitude).bits.toNat = if negative then signBit + magnitude else magnitude := by
  have hlt : (if negative then signBit + magnitude else magnitude) < UInt64.size := by
    have hsize : UInt64.size = 18446744073709551616 := rfl
    have hsign := signBit_eq
    split <;> omega
  exact UInt64.toNat_ofNat_of_lt' hlt

lemma toNat_ofMagnitude_false (h : magnitude < signBit) : (ofMagnitude false magnitude).bits.toNat = magnitude := by
  rw [toNat_ofMagnitude false h, if_neg Bool.false_ne_true]

lemma negative_ofMagnitude (negative : Bool) (h : magnitude < signBit) :
    (ofMagnitude negative magnitude).negative = negative := by
  rw [Binary64.negative, toNat_ofMagnitude negative h]
  cases negative with
  | true => exact decide_eq_true (Nat.le_add_right _ _)
  | false => exact decide_eq_false (Nat.not_le.2 h)

lemma mod_signBit_ofMagnitude (negative : Bool) (h : magnitude < signBit) :
    (ofMagnitude negative magnitude).bits.toNat % signBit = magnitude := by
  rw [signBit_eq] at h
  rw [toNat_ofMagnitude negative h, signBit_eq]
  split <;> omega

lemma isNaN_ofMagnitude (negative : Bool) (h : magnitude ≤ infinityBits) :
    (ofMagnitude negative magnitude).isNaN = false := by
  have hlt : magnitude < signBit := Nat.lt_of_le_of_lt h (by decide)
  have hfields := mod_signBit_eq (ofMagnitude negative magnitude)
  have hfraction := fraction_lt (ofMagnitude negative magnitude)
  rw [mod_signBit_ofMagnitude negative hlt, leadingBit_eq] at hfields
  rw [leadingBit_eq] at hfraction
  rw [infinityBits_eq] at h
  rw [isNaN, Bool.and_eq_false_iff, decide_eq_false_iff_not, decide_eq_false_iff_not]
  omega

end Magnitude

lemma mod_signBit_lt : x.bits.toNat % signBit < signBit := Nat.mod_lt _ (by decide)

/-- The double without its sign. -/
def abs : Binary64 := ofMagnitude false (x.bits.toNat % signBit)

lemma abs_exponentField : x.abs.exponentField = x.exponentField := by
  rw [exponentField, exponentField, abs, toNat_ofMagnitude_false (mod_signBit_lt x), signBit_eq,
    leadingBit_eq]
  omega

lemma abs_fraction : x.abs.fraction = x.fraction := by
  rw [fraction, fraction, abs, toNat_ofMagnitude_false (mod_signBit_lt x), signBit_eq, leadingBit_eq]
  omega

lemma abs_units : x.abs.units = x.units := by
  simp only [units, significand, shift, abs_exponentField, abs_fraction]

lemma abs_isFinite : x.abs.isFinite = x.isFinite := by
  simp only [isFinite, abs_exponentField]

lemma abs_mod_signBit : x.abs.bits.toNat % signBit = x.bits.toNat % signBit := by
  rw [abs, toNat_ofMagnitude_false (mod_signBit_lt x), Nat.mod_mod]

lemma units_eq_zero_iff : x.units = 0 ↔ x.bits.toNat % signBit = 0 := by
  have hpow : 0 < Nat.pow 2 x.shift := Nat.pow_pos (by decide)
  have hlead : 0 < leadingBit := by decide
  rw [mod_signBit_eq, units, Nat.mul_eq_zero, Nat.add_eq_zero_iff, Nat.mul_eq_zero, significand]
  split <;> omega

end Fields

section Ratios

variable {n n' d d' c : Nat} {neg : Bool}

lemma roundQuotient_mul (hc : 0 < c) (n d : Nat) : roundQuotient (n * c) (d * c) = roundQuotient n d := by
  have hdouble : 2 * (n % d * c) = 2 * (n % d) * c := (Nat.mul_assoc _ _ _).symm
  simp only [roundQuotient, Nat.mul_div_mul_right _ _ hc, Nat.mul_mod_mul_right, hdouble,
    Nat.mul_lt_mul_right hc]

lemma roundQuotient_of_dvd (hd : 0 < d) (q : Nat) : roundQuotient (q * d) d = q := by
  simp only [roundQuotient, Nat.mul_div_cancel _ hd, Nat.mul_mod_left, Nat.mul_zero, hd, if_true]

lemma ofUnits_mul (hc : 0 < c) (n d : Nat) : ofUnits neg (n * c) (d * c) = ofUnits neg n d := by
  have hright : ∀ s, d * c * Nat.pow 2 s = d * Nat.pow 2 s * c := fun s => Nat.mul_right_comm _ _ _
  simp only [ofUnits, Nat.mul_div_mul_right _ _ hc, hright, roundQuotient_mul hc]

lemma ofUnits_congr (hd : 0 < d) (hd' : 0 < d') (h : n * d' = n' * d) :
    ofUnits neg n d = ofUnits neg n' d' := by
  rw [← ofUnits_mul hd' n d, ← ofUnits_mul hd n' d', h, Nat.mul_comm d d']

lemma ofUnits_units {x : Binary64} (h : x.isFinite) :
    ofUnits neg x.units 1 = ofMagnitude neg (x.bits.toNat % signBit) := by
  have hfinite : x.exponentField < 2047 := of_decide_eq_true h
  have hfraction := fraction_lt x
  rw [mod_signBit_eq, ofUnits, Nat.div_one]
  by_cases hsub : x.exponentField = 0
  · have hunits : x.units = x.fraction := by
      rw [units, significand, if_pos hsub, shift, hsub]
      exact Nat.mul_one _
    have hlog : x.fraction.log2 - 52 = 0 := by
      by_cases hzero : x.fraction = 0
      · rw [hzero, Nat.log2_zero]
      · have hlt : x.fraction.log2 < 52 := (Nat.log2_lt hzero).2 hfraction
        omega
    have hone : Nat.pow 2 0 = 1 := rfl
    have hround := roundQuotient_of_dvd Nat.one_pos x.fraction
    rw [Nat.mul_one] at hround
    have hle : x.fraction ≤ infinityBits := by
      rw [infinityBits]
      omega
    rw [hunits, hlog, hsub, hone, Nat.mul_one, Nat.zero_mul, hround, Nat.zero_add, Nat.min_eq_right hle]
  · have hunits : x.units = (leadingBit + x.fraction) * 2 ^ x.shift := by
      rw [units, significand, if_neg hsub]
      rfl
    have hpow : 0 < 2 ^ x.shift := Nat.two_pow_pos _
    have hlog : x.units.log2 = 52 + x.shift := by
      have hlead : leadingBit = 2 ^ 52 := rfl
      have hsignificand : leadingBit + x.fraction < 2 ^ 53 := by
        rw [leadingBit_eq] at hfraction ⊢
        omega
      have hne : x.units ≠ 0 := by
        rw [hunits]
        exact Nat.mul_ne_zero (by rw [leadingBit_eq]; omega) (Nat.ne_of_gt hpow)
      refine (Nat.log2_eq_iff hne).2 ⟨?_, ?_⟩
      · rw [hunits, Nat.pow_add, ← hlead]
        exact Nat.mul_le_mul_right _ (Nat.le_add_right _ _)
      · have hexp : 52 + x.shift + 1 = 53 + x.shift := by omega
        rw [hunits, hexp, Nat.pow_add]
        exact Nat.mul_lt_mul_of_pos_right hsignificand hpow
    have hshift : 52 + x.shift - 52 = x.shift := by omega
    have hround : roundQuotient x.units (1 * Nat.pow 2 x.shift) = leadingBit + x.fraction := by
      rw [Nat.one_mul, hunits]
      exact roundQuotient_of_dvd hpow _
    have hmagnitude : x.shift * leadingBit + (leadingBit + x.fraction) =
        x.exponentField * leadingBit + x.fraction := by
      rw [shift, leadingBit_eq]
      omega
    have hle : x.exponentField * leadingBit + x.fraction ≤ infinityBits := by
      rw [leadingBit_eq] at hfraction
      rw [infinityBits, leadingBit_eq]
      omega
    rw [hlog, hshift, hround, hmagnitude, Nat.min_eq_right hle]

end Ratios

section Decimals

variable {k j : Nat} {e : Int}

lemma exists_magnitude (k : Nat) (e : Int) :
    ∃ magnitude ≤ infinityBits, ∀ neg, ofDecimal neg k e = ofMagnitude neg magnitude := by
  unfold ofDecimal
  split
  · exact ⟨0, Nat.zero_le _, fun _ => rfl⟩
  · dsimp only
    split
    · exact ⟨infinityBits, Nat.le_refl _, fun _ => rfl⟩
    · split
      · exact ⟨0, Nat.zero_le _, fun _ => rfl⟩
      · split
        · exact ⟨_, Nat.min_le_left _ _, fun _ => rfl⟩
        · exact ⟨_, Nat.min_le_left _ _, fun _ => rfl⟩

lemma isNaN_ofDecimal (negative : Bool) (digits : Nat) (exponent : Int) :
    (ofDecimal negative digits exponent).isNaN = false := by
  obtain ⟨magnitude, hle, hall⟩ := exists_magnitude digits exponent
  rw [hall, isNaN_ofMagnitude negative hle]

lemma ofDecimal_sign {magnitude : Nat} (hlt : magnitude < signBit)
    (h : ofDecimal false k e = ofMagnitude false magnitude) (neg : Bool) :
    ofDecimal neg k e = ofMagnitude neg magnitude := by
  obtain ⟨magnitude', hle, hall⟩ := exists_magnitude k e
  have hlt' : magnitude' < signBit := Nat.lt_of_le_of_lt hle (by decide)
  have heq : magnitude = magnitude' := by
    rw [← toNat_ofMagnitude_false hlt, ← toNat_ofMagnitude_false hlt', ← h, hall]
  rw [hall, heq]

lemma length_toDigits_mul_ten (hk : k ≠ 0) :
    (Nat.toDigits 10 (k * 10)).length = (Nat.toDigits 10 k).length + 1 := by
  rw [Nat.toDigits_of_base_le (by decide) (by omega), Nat.mul_div_cancel _ (by decide), List.length_append,
    List.length_singleton]

lemma ofDecimal_mul_ten (neg : Bool) (hk : k ≠ 0) : ofDecimal neg (k * 10) e = ofDecimal neg k (e + 1) := by
  have hk' : k * 10 ≠ 0 := by omega
  have horder : e + ((Nat.toDigits 10 k).length + 1 : Nat) = e + 1 + (Nat.toDigits 10 k).length := by omega
  have hpos : ∀ n, 0 < Nat.pow 10 n := fun n => Nat.pow_pos (by decide)
  have hsucc : ∀ n, Nat.pow 10 (n + 1) = Nat.pow 10 n * 10 := fun n => Nat.pow_succ _ _
  unfold ofDecimal
  rw [if_neg hk, if_neg hk', length_toDigits_mul_ten hk, horder]
  dsimp only
  split
  · rfl
  · split
    · rfl
    · by_cases he : 0 ≤ e
      · have hexp : (e + 1).toNat = e.toNat + 1 := by omega
        rw [if_pos he, if_pos (by omega), hexp, hsucc, Nat.mul_assoc k, Nat.mul_comm 10]
      · have hexp : (-e).toNat = (-(e + 1)).toNat + 1 := by omega
        rw [if_neg he, hexp, hsucc]
        by_cases he' : 0 ≤ e + 1
        · have hzero : (-(e + 1)).toNat = 0 := by omega
          have hzero' : (e + 1).toNat = 0 := by omega
          rw [if_pos he', hzero, hzero']
          refine ofUnits_congr (by decide) Nat.one_pos ?_
          show k * 10 * unitsInOne * 1 = k * 1 * unitsInOne * 10
          ring
        · rw [if_neg he']
          refine ofUnits_congr (Nat.mul_pos (hpos _) (by decide)) (hpos _) ?_
          ring

lemma ofDecimal_mul_pow (neg : Bool) (hk : k ≠ 0) :
    ofDecimal neg (k * 10 ^ j) e = ofDecimal neg k (e + j) := by
  induction j generalizing e with
  | zero => rw [Nat.pow_zero, Nat.mul_one, Int.natCast_zero, Int.add_zero]
  | succ j ih =>
    have hne : k * 10 ^ j ≠ 0 := Nat.mul_ne_zero hk (Nat.ne_of_gt (Nat.pow_pos (by decide)))
    have hexp : e + 1 + (j : Int) = e + (j + 1 : Nat) := by omega
    rw [Nat.pow_succ, ← Nat.mul_assoc, ofDecimal_mul_ten neg hne, ih, hexp]

end Decimals

section Shortest

variable {x : Binary64}

lemma Decimal.reads_iff {d : Decimal} : d.reads x ↔ ofDecimal false d.digits d.exponent = x :=
  decide_eq_true_iff

lemma onGrid?_reads {n d : Nat} {e : Int} {r : Decimal} (h : onGrid? x n d e = some r) : r.reads x := by
  unfold onGrid? at h
  dsimp only at h
  split at h
  · next hhi =>
    cases h
    exact (Bool.and_eq_true_iff.1 hhi).1
  · split at h
    · next hlo =>
      cases h
      exact hlo
    · cases h

lemma trimWith_reads {fuel : Nat} {d : Decimal} (h : d.reads x) : (Decimal.trimWith fuel d).reads x := by
  induction fuel generalizing d with
  | zero => exact h
  | succ fuel ih =>
    unfold Decimal.trimWith
    split
    · next hdigits =>
      refine ih (Decimal.reads_iff.2 ?_)
      have hne : d.digits / 10 ≠ 0 := by omega
      have hmul : d.digits / 10 * 10 = d.digits := by omega
      rw [← ofDecimal_mul_ten false hne, hmul]
      exact Decimal.reads_iff.1 h
    · exact h

lemma units_lt {k : Nat} (h : x.isFinite) (hk : 2045 ≤ k) : x.units < Nat.pow 2 53 * Nat.pow 2 k := by
  have hfinite : x.exponentField < 2047 := of_decide_eq_true h
  have hfraction := fraction_lt x
  have hsignificand : x.significand < 2 ^ 53 := by
    rw [leadingBit_eq] at hfraction
    rw [significand, leadingBit_eq]
    split <;> omega
  have hshift : x.shift ≤ k := by
    rw [shift]
    omega
  exact Nat.mul_lt_mul_of_lt_of_le hsignificand (Nat.pow_le_pow_right (by decide) hshift) (Nat.two_pow_pos _)

lemma length_toDigits_le {n k : Nat} (hk : 0 < k) (h : n < Nat.pow 10 k) : (Nat.toDigits 10 n).length ≤ k :=
  (Nat.length_toDigits_le_iff (by decide) hk).2 h

lemma lt_length_toDigits {n k : Nat} (hk : 0 < k) (h : Nat.pow 10 k ≤ n) : k < (Nat.toDigits 10 n).length := by
  rw [← Nat.not_le, Nat.length_toDigits_le_iff (by decide) hk, Nat.not_lt]
  exact h

/-- A multiple of a power of five that makes the units of a finite double a decimal reads back as it. -/
lemma multiple_reads {bound five j : Nat} (h : x.isFinite) (hunits : x.units ≠ 0) (hbound : x.units < bound)
    (habs : ofMagnitude false (x.bits.toNat % signBit) = x) (hj : 400 < j)
    (hfive : five * unitsInOne = Nat.pow 10 j) (hlow : Nat.pow 10 (j - 400) ≤ five)
    (hhigh : bound * five ≤ Nat.pow 10 (j + 400)) :
    Decimal.reads ⟨x.units * five, -j⟩ x := by
  have hpos : 0 < five := Nat.lt_of_lt_of_le (Nat.pow_pos (by decide)) hlow
  have hlt := Nat.mul_lt_mul_of_pos_right hbound hpos
  have hshort : (Nat.toDigits 10 (x.units * five)).length ≤ j + 400 :=
    length_toDigits_le (by omega) (Nat.lt_of_lt_of_le hlt hhigh)
  have hlong : j - 400 < (Nat.toDigits 10 (x.units * five)).length :=
    lt_length_toDigits (by omega) (Nat.le_trans hlow (Nat.le_mul_of_pos_left _ (Nat.pos_of_ne_zero hunits)))
  have hratio : x.units * five * unitsInOne * 1 = x.units * Nat.pow 10 j := by
    rw [Nat.mul_one, Nat.mul_assoc, hfive]
  have hexp : (- -(j : Int)).toNat = j := by omega
  refine Decimal.reads_iff.2 ?_
  rw [ofDecimal, if_neg (Nat.mul_ne_zero hunits (Nat.ne_of_gt hpos))]
  dsimp only
  rw [if_neg (by omega), if_neg (by omega), if_neg (by omega), hexp]
  have hten : 0 < Nat.pow 10 j := Nat.pow_pos (by decide)
  rw [ofUnits_congr hten Nat.one_pos hratio, ofUnits_units h, habs]

lemma shortest_reads (h : x.isFinite) (hunits : x.units ≠ 0)
    (habs : ofMagnitude false (x.bits.toNat % signBit) = x) : (shortest x).reads x := by
  unfold shortest
  refine trimWith_reads ?_
  cases hfound : (List.range 17).findSome? fun k : Nat =>
      onGrid? x x.units unitsInOne (decimalOrder x.units unitsInOne - 1 - k) with
  | none =>
    rw [Option.getD_none]
    exact multiple_reads (j := 1074) h hunits (units_lt (k := 2045) h (Nat.le_refl _)) habs (by decide)
      (by decide +kernel) (by decide +kernel) (by decide +kernel)
  | some d =>
    obtain ⟨k, -, hk⟩ := List.exists_of_findSome?_eq_some hfound
    rw [Option.getD_some]
    exact onGrid?_reads hk

/-- The shortest decimal of a double without its sign reads back as the double with its sign. -/
lemma ofDecimal_shortest (h : x.isFinite) (hunits : x.units ≠ 0) :
    ofDecimal x.negative (shortest x.abs).digits (shortest x.abs).exponent = x := by
  have habs : ofMagnitude false (x.abs.bits.toNat % signBit) = x.abs := by
    rw [abs_mod_signBit, abs]
  have hreads := shortest_reads (by rw [abs_isFinite]; exact h) (by rw [abs_units]; exact hunits) habs
  have hsign := ofDecimal_sign (mod_signBit_lt x) (Decimal.reads_iff.1 hreads) x.negative
  rw [hsign, ofMagnitude_negative]

lemma digits_shortest_ne_zero (h : x.isFinite) (hunits : x.units ≠ 0) : (shortest x.abs).digits ≠ 0 := by
  intro hzero
  have hx := ofDecimal_shortest h hunits
  rw [hzero, ofDecimal, if_pos rfl, zero] at hx
  have hmod : x.bits.toNat % signBit = 0 := by
    rw [← hx, ofMagnitude]
    cases x.negative
    · rfl
    · rfl
  exact hunits ((units_eq_zero_iff x).2 hmod)

end Shortest

end BlockIR.Binary64
