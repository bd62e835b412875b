import BlockIR.Proofs.Literals
import BlockIR.Proofs.RoundTrip.Rounding
import Mathlib.Algebra.Order.Field.Power
import Mathlib.Algebra.Order.Field.Rat
import Mathlib.Algebra.Order.Group.Abs
import Mathlib.Tactic.FieldSimp
import Mathlib.Tactic.Linarith
import Mathlib.Tactic.NormNum
import Mathlib.Tactic.Positivity

/-!
# Nearest doubles

The sizes of doubles grow with their low 63 bits. A rounded decimal is the double whose size is nearest to it, and of
two that are equally near it is the one with an even significand.
-/

namespace BlockIR

namespace Binary64

/-- The size of a double. An infinity counts as the power of two that follows the finite doubles. -/
def size (x : Binary64) : ℚ := x.units / unitsInOne

/-- A double with a sign that is as near to a size as any other, and even if another one is as near. -/
structure IsNearest (x : Binary64) (negative : Bool) (r : ℚ) : Prop where
  negative_eq : x.negative = negative
  isNaN_eq : x.isNaN = false
  le (y : Binary64) : y.isNaN = false → |x.size - r| ≤ |y.size - r|
  even (y : Binary64) : y.isNaN = false → y.size ≠ x.size → |x.size - r| = |y.size - r| → x.bits.toNat % 2 = 0

/-- The units of a double, by its low 63 bits. -/
def unitsAt (b : Nat) : Nat :=
  (if b / leadingBit = 0 then b % leadingBit else leadingBit + b % leadingBit) * 2 ^ (b / leadingBit - 1)

lemma units_eq_unitsAt (x : Binary64) : x.units = unitsAt (x.bits.toNat % signBit) := by
  have hfraction := fraction_lt x
  have hfield : (x.exponentField * leadingBit + x.fraction) / leadingBit = x.exponentField := by
    rw [leadingBit_eq] at *
    omega
  have hlow : (x.exponentField * leadingBit + x.fraction) % leadingBit = x.fraction := by
    rw [leadingBit_eq] at *
    omega
  rw [unitsAt, mod_signBit_eq, hfield, hlow]
  rfl

lemma unitsAt_shifted {s q : Nat} (hq : q ≤ 2 * leadingBit) (hs : s = 0 ∨ leadingBit ≤ q) :
    unitsAt (s * leadingBit + q) = q * 2 ^ s := by
  have hlead : 0 < leadingBit := by decide
  unfold unitsAt
  rcases Nat.lt_or_ge q leadingBit with hlt | hge
  · obtain rfl := hs.resolve_right (Nat.not_le.2 hlt)
    rw [Nat.zero_mul, Nat.zero_add, Nat.div_eq_of_lt hlt, Nat.mod_eq_of_lt hlt, if_pos rfl]
  · rcases Nat.lt_or_ge q (2 * leadingBit) with hlt | hge'
    · have hdiv : (s * leadingBit + q) / leadingBit = s + 1 := by
        rw [leadingBit_eq] at *
        omega
      have hmod : leadingBit + (s * leadingBit + q) % leadingBit = q := by
        rw [leadingBit_eq] at *
        omega
      rw [hdiv, hmod, if_neg (Nat.succ_ne_zero s), Nat.add_sub_cancel]
    · obtain rfl : q = 2 * leadingBit := Nat.le_antisymm hq hge'
      have hdiv : (s * leadingBit + 2 * leadingBit) / leadingBit = s + 2 := by
        rw [← Nat.add_mul, Nat.mul_div_cancel _ hlead]
      have hmod : (s * leadingBit + 2 * leadingBit) % leadingBit = 0 := by
        rw [← Nat.add_mul, Nat.mul_mod_left]
      have hexp : s + 2 - 1 = s + 1 := rfl
      rw [hdiv, hmod, if_neg (Nat.succ_ne_zero _), hexp, Nat.add_zero, Nat.pow_succ]
      ring

/-- The next double is one step away, and all steps at one exponent are alike. -/
lemma unitsAt_succ (b : Nat) : unitsAt (b + 1) = unitsAt b + 2 ^ (b / leadingBit - 1) := by
  have hb := Nat.div_add_mod' b leadingBit
  have hlow : b % leadingBit < leadingBit := Nat.mod_lt _ (by decide)
  by_cases hzero : b / leadingBit = 0
  · have hlt : b < leadingBit := by
      rw [hzero] at hb
      omega
    have h := unitsAt_shifted (s := 0) (q := b) (by omega) (.inl rfl)
    have hsucc := unitsAt_shifted (s := 0) (q := b + 1) (by omega) (.inl rfl)
    rw [Nat.zero_mul, Nat.zero_add] at h hsucc
    rw [h, hsucc, hzero]
    rfl
  · obtain ⟨s, hs⟩ := Nat.exists_eq_succ_of_ne_zero hzero
    have hsplit : b = s * leadingBit + (leadingBit + b % leadingBit) := by
      rw [hs, Nat.succ_mul] at hb
      omega
    have h := unitsAt_shifted (s := s) (q := leadingBit + b % leadingBit) (by omega) (.inr (by omega))
    have hsucc := unitsAt_shifted (s := s) (q := leadingBit + b % leadingBit + 1) (by omega) (.inr (by omega))
    rw [← Nat.add_assoc, ← hsplit] at hsucc
    rw [← hsplit] at h
    rw [h, hsucc, hs, Nat.succ_sub_one, Nat.succ_mul]

lemma strictMono_unitsAt : StrictMono unitsAt :=
  strictMono_nat_of_lt_succ fun b => by
    rw [unitsAt_succ]
    exact Nat.lt_add_of_pos_right (Nat.two_pow_pos _)

/-- Among the low bits in a set, these are as near to a number of units as any, and even if others are as near. -/
structure IsNearestIn (bits : Set Nat) (r : ℚ) (m : Nat) : Prop where
  mem : m ∈ bits
  le (b : Nat) : b ∈ bits → |(unitsAt m : ℚ) - r| ≤ |(unitsAt b : ℚ) - r|
  even (b : Nat) : b ∈ bits → b ≠ m → |(unitsAt m : ℚ) - r| = |(unitsAt b : ℚ) - r| → m % 2 = 0

section Neighbours

variable {r : ℚ} {lo m : Nat}

lemma unitsAt_le_cast {b b' : Nat} (h : b ≤ b') : (unitsAt b : ℚ) ≤ unitsAt b' :=
  Nat.cast_le.2 (strictMono_unitsAt.monotone h)

lemma unitsAt_lt_cast {b b' : Nat} (h : b < b') : (unitsAt b : ℚ) < unitsAt b' :=
  Nat.cast_lt.2 (strictMono_unitsAt h)

lemma isNearestIn_neighbour (hlo : unitsAt lo ≤ r) (hhi : r ≤ unitsAt (lo + 1))
    (hnear : m = lo ∧ r - unitsAt lo ≤ unitsAt (lo + 1) - r ∨ m = lo + 1 ∧ unitsAt (lo + 1) - r ≤ r - unitsAt lo)
    (heven : r - unitsAt lo = unitsAt (lo + 1) - r → m % 2 = 0) : IsNearestIn Set.univ r m := by
  have hbelow {b : Nat} (hb : b ≤ lo) : |(unitsAt b : ℚ) - r| = r - unitsAt b := by
    have hb := unitsAt_le_cast hb
    rw [abs_sub_comm, abs_of_nonneg (by linarith)]
  have habove {b : Nat} (hb : lo < b) : |(unitsAt b : ℚ) - r| = unitsAt b - r := by
    have hb := unitsAt_le_cast hb
    exact abs_of_nonneg (by linarith)
  have hm : |(unitsAt m : ℚ) - r| = min (r - unitsAt lo) (unitsAt (lo + 1) - r) := by
    rcases hnear with ⟨rfl, hle⟩ | ⟨rfl, hle⟩
    · rw [hbelow (Nat.le_refl m), min_eq_left hle]
    · rw [habove (Nat.lt_succ_self lo), min_eq_right hle]
  refine ⟨trivial, fun b _ => ?_, fun b _ hb htie => heven ?_⟩
  · rw [hm]
    rcases Nat.lt_or_ge lo b with hlt | hge
    · rw [habove hlt]
      exact (min_le_right _ _).trans (sub_le_sub_right (unitsAt_le_cast hlt) r)
    · rw [hbelow hge]
      exact (min_le_left _ _).trans (sub_le_sub_left (unitsAt_le_cast hge) r)
  · rw [hm] at htie
    rcases Nat.lt_or_ge lo b with hlt | hge
    · rw [habove hlt] at htie
      rcases hnear with ⟨-, hle⟩ | ⟨rfl, hle⟩
      · have hb := unitsAt_le_cast hlt
        rw [min_eq_left hle] at htie
        linarith
      · have hb := unitsAt_lt_cast (Nat.lt_of_le_of_ne hlt (Ne.symm hb))
        rw [min_eq_right hle] at htie
        linarith
    · rw [hbelow hge] at htie
      rcases hnear with ⟨rfl, hle⟩ | ⟨-, hle⟩
      · have hb := unitsAt_lt_cast (Nat.lt_of_le_of_ne hge hb)
        rw [min_eq_left hle] at htie
        linarith
      · have hb := unitsAt_le_cast hge
        rw [min_eq_right hle] at htie
        linarith

lemma isNearestIn_infinity (h : unitsAt infinityBits ≤ r) : IsNearestIn (Set.Iic infinityBits) r infinityBits := by
  refine ⟨Set.mem_Iic.2 (Nat.le_refl _), fun b hb => ?_, fun _ _ _ _ => by decide⟩
  have hb := unitsAt_le_cast (Set.mem_Iic.1 hb)
  rw [abs_sub_comm, abs_sub_comm (unitsAt b : ℚ), abs_of_nonneg (by linarith), abs_of_nonneg (by linarith)]
  linarith

lemma isNearestIn_zero (hzero : 0 ≤ r) (h : 2 * r < 1) : IsNearestIn (Set.Iic infinityBits) r 0 := by
  have hunits : (unitsAt 0 : ℚ) = 0 := by
    rw [Nat.cast_eq_zero]
    decide
  refine ⟨Set.mem_Iic.2 (Nat.zero_le _), fun b hb => ?_, fun _ _ _ _ => rfl⟩
  rcases Nat.eq_zero_or_pos b with rfl | hpos
  · exact le_refl _
  · have hone : (1 : ℚ) ≤ unitsAt b := by
      rw [Nat.one_le_cast]
      exact Nat.lt_of_le_of_lt (Nat.zero_le _) (strictMono_unitsAt hpos)
    rw [hunits, abs_sub_comm, sub_zero, abs_of_nonneg hzero, abs_of_nonneg (by linarith)]
    linarith

lemma IsNearestIn.min_infinity (h : IsNearestIn Set.univ r m) :
    IsNearestIn (Set.Iic infinityBits) r (min infinityBits m) := by
  rcases Nat.lt_or_ge infinityBits m with hlt | hge
  · rw [Nat.min_eq_left (Nat.le_of_lt hlt)]
    refine isNearestIn_infinity ?_
    by_contra hr
    have hle := h.le infinityBits trivial
    have hunits := unitsAt_lt_cast hlt
    rw [abs_of_nonneg (by linarith), abs_of_nonneg (by linarith)] at hle
    linarith
  · rw [Nat.min_eq_right hge]
    exact ⟨hge, fun b _ => h.le b trivial, fun b _ => h.even b trivial⟩

end Neighbours

section Rounding

variable {n d : Nat}

lemma significand_bounds (n d : Nat) :
    n / (d * 2 ^ ((n / d).log2 - 52)) < 2 * leadingBit ∧
      ((n / d).log2 - 52 = 0 ∨ leadingBit ≤ n / (d * 2 ^ ((n / d).log2 - 52))) := by
  have hdouble : 2 * leadingBit = 2 ^ 53 := by decide
  have hlead : leadingBit = 2 ^ 52 := rfl
  rw [← Nat.div_div_eq_div_mul, hdouble, hlead]
  constructor
  · refine Nat.div_lt_of_lt_mul (Nat.lt_of_lt_of_le Nat.lt_log2_self ?_)
    rw [← Nat.pow_add]
    exact Nat.pow_le_pow_right (by decide) (by omega)
  · refine or_iff_not_imp_left.2 fun hs => ?_
    have hne : n / d ≠ 0 := by
      intro hzero
      rw [hzero, Nat.log2_zero] at hs
      exact hs rfl
    have hlog : 52 + ((n / d).log2 - 52) = (n / d).log2 := by omega
    rw [Nat.le_div_iff_mul_le (Nat.two_pow_pos _), ← Nat.pow_add, hlog]
    exact Nat.log2_self_le hne

lemma gaps_eq {s q rest : Nat} (hn : d * 2 ^ s * q + rest = n) (hd : 0 < d) (hlt : q < 2 * leadingBit)
    (hlead : s = 0 ∨ leadingBit ≤ q) :
    (n : ℚ) / d - unitsAt (s * leadingBit + q) = rest / d ∧
      (unitsAt (s * leadingBit + q + 1) : ℚ) - n / d = (d * 2 ^ s - rest) / d := by
  have hlo : (unitsAt (s * leadingBit + q) : ℚ) = q * 2 ^ s := by
    rw [unitsAt_shifted (Nat.le_of_lt hlt) hlead]
    push_cast
    rfl
  have hhi : (unitsAt (s * leadingBit + q + 1) : ℚ) = (q + 1) * 2 ^ s := by
    rw [Nat.add_assoc, unitsAt_shifted hlt (hlead.imp_right Nat.le_succ_of_le)]
    push_cast
    rfl
  have hdpos : (0 : ℚ) < d := Nat.cast_pos.2 hd
  rw [hlo, hhi, ← hn]
  push_cast
  constructor
  · field_simp
    ring
  · field_simp
    ring

/-- A ratio lies between a significand and the next one at its shift, and is rounded to the nearer. -/
lemma isNearestIn_roundQuotient (n : Nat) (hd : 0 < d) : IsNearestIn Set.univ ((n : ℚ) / d)
    (((n / d).log2 - 52) * leadingBit + roundQuotient n (d * 2 ^ ((n / d).log2 - 52))) := by
  obtain ⟨hlt, hlead⟩ := significand_bounds n d
  generalize (n / d).log2 - 52 = s at *
  have hn := Nat.div_add_mod n (d * 2 ^ s)
  have hrest := Nat.mod_lt n (Nat.mul_pos hd (Nat.two_pow_pos s))
  unfold roundQuotient
  dsimp only
  generalize n / (d * 2 ^ s) = q at *
  generalize n % (d * 2 ^ s) = rest at *
  obtain ⟨hbelow, habove⟩ := gaps_eq hn hd hlt hlead
  have hdpos : (0 : ℚ) < d := Nat.cast_pos.2 hd
  have hcast : ((d * 2 ^ s : Nat) : ℚ) = d * 2 ^ s := by push_cast; rfl
  have hlow : unitsAt (s * leadingBit + q) ≤ (n : ℚ) / d := by
    rw [← sub_nonneg, hbelow]
    positivity
  have hhigh : (n : ℚ) / d ≤ unitsAt (s * leadingBit + q + 1) := by
    have hle : (rest : ℚ) ≤ d * 2 ^ s := hcast ▸ Nat.cast_le.2 (Nat.le_of_lt hrest)
    rw [← sub_nonneg, habove]
    exact div_nonneg (sub_nonneg.2 hle) hdpos.le
  have hhalf : (n : ℚ) / d - unitsAt (s * leadingBit + q) = unitsAt (s * leadingBit + q + 1) - n / d →
      2 * rest = d * 2 ^ s := by
    rw [hbelow, habove, div_left_inj' hdpos.ne', eq_sub_iff_add_eq, ← hcast, ← two_mul]
    exact_mod_cast id
  have hdown (h : 2 * rest ≤ d * 2 ^ s) :
      (n : ℚ) / d - unitsAt (s * leadingBit + q) ≤ unitsAt (s * leadingBit + q + 1) - n / d := by
    have h' : (2 * rest : ℚ) ≤ d * 2 ^ s := by exact_mod_cast h
    rw [hbelow, habove, div_le_div_iff_of_pos_right hdpos]
    linarith
  have hup (h : d * 2 ^ s ≤ 2 * rest) :
      unitsAt (s * leadingBit + q + 1) - (n : ℚ) / d ≤ n / d - unitsAt (s * leadingBit + q) := by
    have h' : (d * 2 ^ s : ℚ) ≤ 2 * rest := by exact_mod_cast h
    rw [hbelow, habove, div_le_div_iff_of_pos_right hdpos]
    linarith
  have heven : s * leadingBit % 2 = 0 := by rw [Nat.mul_mod, leadingBit_eq]; simp
  have hnext : s * leadingBit + (q + 1) = s * leadingBit + q + 1 := (Nat.add_assoc _ q 1).symm
  split_ifs with hless hmore
  · exact isNearestIn_neighbour hlow hhigh (.inl ⟨rfl, hdown (Nat.le_of_lt hless)⟩) fun htie =>
      absurd (hhalf htie) (Nat.ne_of_lt hless)
  · exact isNearestIn_neighbour hlow hhigh (.inr ⟨hnext, hup (Nat.le_of_lt hmore)⟩) fun htie =>
      absurd (hhalf htie).symm (Nat.ne_of_lt hmore)
  · rcases Nat.mod_two_eq_zero_or_one q with hq | hq
    · rw [hq]
      exact isNearestIn_neighbour hlow hhigh (.inl ⟨rfl, hdown (Nat.le_of_not_lt hmore)⟩) fun _ => by omega
    · rw [hq]
      exact isNearestIn_neighbour hlow hhigh (.inr ⟨hnext, hup (Nat.le_of_not_lt hless)⟩) fun _ => by omega

end Rounding

lemma isNaN_eq_false_iff {x : Binary64} : x.isNaN = false ↔ x.bits.toNat % signBit ≤ infinityBits := by
  have hfraction := fraction_lt x
  have hfield : x.exponentField < 2048 := Nat.mod_lt _ (by decide)
  rw [isNaN, Bool.and_eq_false_iff, decide_eq_false_iff_not, decide_eq_false_iff_not, mod_signBit_eq, infinityBits_eq,
    leadingBit_eq]
  rw [leadingBit_eq] at hfraction
  omega

section Sizes

variable {x y : Binary64} {r : ℚ}

lemma unitsInOne_pos : (0 : ℚ) < unitsInOne := Nat.cast_pos.2 (by decide +kernel)

lemma abs_size_sub (x : Binary64) (r : ℚ) :
    |x.size - r| = |(unitsAt (x.bits.toNat % signBit) : ℚ) - r * unitsInOne| / unitsInOne := by
  have hsize : x.size - r = ((unitsAt (x.bits.toNat % signBit) : ℚ) - r * unitsInOne) / unitsInOne := by
    rw [size, units_eq_unitsAt, sub_div, mul_div_cancel_right₀ _ unitsInOne_pos.ne']
  rw [hsize, abs_div, abs_of_pos unitsInOne_pos]

lemma abs_size_sub_le_iff : |x.size - r| ≤ |y.size - r| ↔
    |(unitsAt (x.bits.toNat % signBit) : ℚ) - r * unitsInOne| ≤
      |(unitsAt (y.bits.toNat % signBit) : ℚ) - r * unitsInOne| := by
  rw [abs_size_sub, abs_size_sub, div_le_div_iff_of_pos_right unitsInOne_pos]

lemma abs_size_sub_eq_iff : |x.size - r| = |y.size - r| ↔
    |(unitsAt (x.bits.toNat % signBit) : ℚ) - r * unitsInOne| =
      |(unitsAt (y.bits.toNat % signBit) : ℚ) - r * unitsInOne| := by
  rw [abs_size_sub, abs_size_sub, div_left_inj' unitsInOne_pos.ne']

lemma size_eq_iff : x.size = y.size ↔ x.bits.toNat % signBit = y.bits.toNat % signBit := by
  rw [size, size, div_left_inj' unitsInOne_pos.ne', Nat.cast_inj, units_eq_unitsAt, units_eq_unitsAt,
    strictMono_unitsAt.injective.eq_iff]

lemma isNearest_iff {negative : Bool} : x.IsNearest negative r ↔
    x.negative = negative ∧ IsNearestIn (Set.Iic infinityBits) (r * unitsInOne) (x.bits.toNat % signBit) := by
  have hparity : x.bits.toNat % signBit % 2 = x.bits.toNat % 2 := by
    rw [signBit_eq]
    omega
  constructor
  · intro h
    have hmagnitude (b : Nat) (hb : b ≤ infinityBits) :
        (ofMagnitude false b).isNaN = false ∧ (ofMagnitude false b).bits.toNat % signBit = b :=
      ⟨isNaN_ofMagnitude false hb, mod_signBit_ofMagnitude false (Nat.lt_of_le_of_lt hb (by decide))⟩
    refine ⟨h.negative_eq, isNaN_eq_false_iff.1 h.isNaN_eq, fun b hb => ?_, fun b hb hne htie => ?_⟩
    · obtain ⟨hnumber, hbits⟩ := hmagnitude b hb
      rw [← hbits]
      exact abs_size_sub_le_iff.1 (h.le _ hnumber)
    · obtain ⟨hnumber, hbits⟩ := hmagnitude b hb
      rw [← hbits] at hne htie
      rw [hparity]
      exact h.even _ hnumber (fun heq => hne (size_eq_iff.1 heq)) (abs_size_sub_eq_iff.2 htie)
  · rintro ⟨hnegative, h⟩
    refine ⟨hnegative, isNaN_eq_false_iff.2 h.mem, fun y hy => ?_, fun y hy hne htie => ?_⟩
    · exact abs_size_sub_le_iff.2 (h.le _ (isNaN_eq_false_iff.1 hy))
    · rw [← hparity]
      exact h.even _ (isNaN_eq_false_iff.1 hy) (fun heq => hne (size_eq_iff.2 heq)) (abs_size_sub_eq_iff.1 htie)

/-- Low bits that are nearest to one number are equal: two of them would be neighbours, and not both even. -/
lemma IsNearestIn.unique {m m' : Nat} (h : IsNearestIn (Set.Iic infinityBits) r m)
    (h' : IsNearestIn (Set.Iic infinityBits) r m') : m = m' := by
  wlog hlt : m < m' generalizing m m'
  · rcases Nat.lt_or_eq_of_le (Nat.le_of_not_lt hlt) with hgt | heq
    · exact (this h' h hgt).symm
    · exact heq.symm
  exfalso
  have htie : |(unitsAt m : ℚ) - r| = |(unitsAt m' : ℚ) - r| := le_antisymm (h.le m' h'.mem) (h'.le m h.mem)
  have heven := h.even m' h'.mem (Nat.ne_of_gt hlt) htie
  have heven' := h'.even m h.mem (Nat.ne_of_lt hlt) htie.symm
  have hbetween : m + 1 < m' := by omega
  have hlow := unitsAt_lt_cast (Nat.lt_succ_self m)
  have hhigh := unitsAt_lt_cast hbetween
  have hnext := h.le (m + 1) (Nat.le_trans (Nat.le_of_lt hbetween) h'.mem)
  rcases abs_eq_abs.1 htie with hsame | hopposite
  · linarith
  · have hcloser : |(unitsAt (m + 1) : ℚ) - r| < r - unitsAt m := abs_lt.2 ⟨by linarith, by linarith⟩
    rw [abs_sub_comm, abs_of_pos (by linarith)] at hnext
    linarith

theorem IsNearest.unique {negative : Bool} (h : x.IsNearest negative r) (h' : y.IsNearest negative r) : x = y := by
  obtain ⟨hsign, hbits⟩ := isNearest_iff.1 h
  obtain ⟨hsign', hbits'⟩ := isNearest_iff.1 h'
  rw [← ofMagnitude_negative x, ← ofMagnitude_negative y, hsign, hsign', hbits.unique hbits']

end Sizes

lemma isNearest_ofMagnitude {r : ℚ} {m : Nat} (negative : Bool)
    (h : IsNearestIn (Set.Iic infinityBits) (r * unitsInOne) m) : (ofMagnitude negative m).IsNearest negative r := by
  have hlt : m < signBit := Nat.lt_of_le_of_lt h.mem (by decide)
  refine isNearest_iff.2 ⟨negative_ofMagnitude negative hlt, ?_⟩
  rw [mod_signBit_ofMagnitude negative hlt]
  exact h

lemma isNearest_ofUnits {r : ℚ} {n d : Nat} (negative : Bool) (hd : 0 < d) (hr : r * unitsInOne = n / d) :
    (ofUnits negative n d).IsNearest negative r := by
  refine isNearest_ofMagnitude negative ?_
  rw [hr]
  exact (isNearestIn_roundQuotient n hd).min_infinity

section Decimals

variable {digits : Nat} {exponent : Int}

lemma pow_le_of_length_toDigits (hdigits : digits ≠ 0) : 10 ^ ((Nat.toDigits 10 digits).length - 1) ≤ digits := by
  rcases Nat.eq_zero_or_pos ((Nat.toDigits 10 digits).length - 1) with hone | hpos
  · rw [hone, Nat.pow_zero]
    exact Nat.pos_of_ne_zero hdigits
  · rw [← Nat.not_lt, ← Nat.length_toDigits_le_iff (by decide) hpos]
    omega

lemma lt_pow_length_toDigits (digits : Nat) : digits < 10 ^ (Nat.toDigits 10 digits).length :=
  (Nat.length_toDigits_le_iff (by decide) (List.length_pos_of_ne_nil Nat.toDigits_ne_nil)).1 (Nat.le_refl _)

lemma cast_pow_ten (k : Nat) : ((Nat.pow 10 k : Nat) : ℚ) = 10 ^ (k : Int) :=
  (Nat.cast_pow 10 k).trans (zpow_natCast 10 k).symm

lemma unitsAt_infinity_le {k : Nat} (hk : unitsAt infinityBits ≤ Nat.pow 10 k * unitsInOne) (hdigits : digits ≠ 0)
    (horder : k < exponent + (Nat.toDigits 10 digits).length) :
    (unitsAt infinityBits : ℚ) ≤ digits * 10 ^ exponent * unitsInOne := by
  have hdecimal : (10 : ℚ) ^ (k : Int) ≤ digits * 10 ^ exponent := by
    have hlength : 0 < (Nat.toDigits 10 digits).length := List.length_pos_of_ne_nil Nat.toDigits_ne_nil
    have hpow : (10 : ℚ) ^ ((Nat.toDigits 10 digits).length - 1) ≤ digits := by
      exact_mod_cast pow_le_of_length_toDigits hdigits
    calc (10 : ℚ) ^ (k : Int)
        ≤ 10 ^ (((Nat.toDigits 10 digits).length - 1 : Nat) + exponent) :=
          zpow_le_zpow_right₀ (by norm_num) (by omega)
      _ = 10 ^ ((Nat.toDigits 10 digits).length - 1) * 10 ^ exponent := by
          rw [zpow_add₀ (by norm_num), zpow_natCast]
      _ ≤ digits * 10 ^ exponent := mul_le_mul_of_nonneg_right hpow (by positivity)
  calc (unitsAt infinityBits : ℚ)
      ≤ ((Nat.pow 10 k * unitsInOne : Nat) : ℚ) := Nat.cast_le.2 hk
    _ = 10 ^ (k : Int) * unitsInOne := by rw [Nat.cast_mul, cast_pow_ten]
    _ ≤ digits * 10 ^ exponent * unitsInOne := mul_le_mul_of_nonneg_right hdecimal (Nat.cast_nonneg _)

lemma two_mul_units_lt_one {k : Nat} (hk : 2 * unitsInOne < Nat.pow 10 k)
    (horder : exponent + (Nat.toDigits 10 digits).length < -k) : 2 * (digits * 10 ^ exponent * unitsInOne : ℚ) < 1 := by
  have hdecimal : (digits : ℚ) * 10 ^ exponent ≤ 10 ^ (-k : Int) := by
    have hpow : (digits : ℚ) ≤ 10 ^ (Nat.toDigits 10 digits).length := by
      exact_mod_cast Nat.le_of_lt (lt_pow_length_toDigits digits)
    calc (digits : ℚ) * 10 ^ exponent
        ≤ 10 ^ (Nat.toDigits 10 digits).length * 10 ^ exponent := mul_le_mul_of_nonneg_right hpow (by positivity)
      _ = 10 ^ (((Nat.toDigits 10 digits).length : Int) + exponent) := by
          rw [zpow_add₀ (by norm_num), zpow_natCast]
      _ ≤ 10 ^ (-k : Int) := zpow_le_zpow_right₀ (by norm_num) (by omega)
  have hhalf : 2 * (unitsInOne : ℚ) < 10 ^ (k : Int) := by
    rw [← cast_pow_ten]
    exact_mod_cast hk
  have hunits : (0 : ℚ) ≤ 2 * unitsInOne := mul_nonneg zero_le_two (Nat.cast_nonneg _)
  calc 2 * (digits * 10 ^ exponent * unitsInOne : ℚ) = digits * 10 ^ exponent * (2 * unitsInOne) := by ring
    _ ≤ 10 ^ (-k : Int) * (2 * unitsInOne) := mul_le_mul_of_nonneg_right hdecimal hunits
    _ < 10 ^ (-k : Int) * 10 ^ (k : Int) := mul_lt_mul_of_pos_left hhalf (by positivity)
    _ = 1 := by rw [← zpow_add₀ (by norm_num), neg_add_cancel, zpow_zero]

/-- A decimal is rounded to the double that is nearest to it. -/
theorem isNearest_ofDecimal (negative : Bool) (digits : Nat) (exponent : Int) :
    (ofDecimal negative digits exponent).IsNearest negative (digits * 10 ^ exponent) := by
  have hpow (n : Nat) : ((Nat.pow 10 n : Nat) : ℚ) = 10 ^ n := Nat.cast_pow 10 n
  unfold ofDecimal
  split
  · next hzero =>
    rw [hzero, Nat.cast_zero, zero_mul]
    refine isNearest_ofMagnitude negative ?_
    rw [zero_mul]
    exact isNearestIn_zero (le_refl _) (by norm_num)
  · next hzero =>
    dsimp only
    split
    · next hhigh =>
      have hbound : unitsAt infinityBits ≤ Nat.pow 10 400 * unitsInOne := by decide +kernel
      exact isNearest_ofMagnitude negative (isNearestIn_infinity (unitsAt_infinity_le hbound hzero hhigh))
    · split
      · next hlow =>
        have hbound : 2 * unitsInOne < Nat.pow 10 400 := by decide +kernel
        have hnonneg : (0 : ℚ) ≤ digits * 10 ^ exponent * unitsInOne := mul_nonneg (by positivity) (Nat.cast_nonneg _)
        exact isNearest_ofMagnitude negative (isNearestIn_zero hnonneg (two_mul_units_lt_one hbound hlow))
      · split
        · next hexponent =>
          refine isNearest_ofUnits negative Nat.one_pos ?_
          obtain ⟨n, rfl⟩ := Int.eq_ofNat_of_zero_le hexponent
          rw [Nat.cast_one, div_one, Nat.cast_mul, Nat.cast_mul, hpow, Int.toNat_natCast, zpow_natCast]
        · next hexponent =>
          refine isNearest_ofUnits negative (Nat.pow_pos (by decide)) ?_
          obtain ⟨n, hn⟩ := Int.eq_ofNat_of_zero_le (Int.le_of_lt (Int.neg_pos_of_neg (Int.not_le.1 hexponent)))
          obtain rfl : exponent = -n := by omega
          rw [hn, Int.toNat_natCast, hpow, Nat.cast_mul, zpow_neg, zpow_natCast]
          ring

end Decimals

end Binary64

/-- The double of a float literal is the one nearest to the decimal that it spells. -/
lemma Literal.isNearest_doubleOf (w : List Char) :
    (doubleOf w).IsNearest (w.head? = some '-') ((decimalOf w).1 * 10 ^ (decimalOf w).2) :=
  Binary64.isNearest_ofDecimal _ _ _

end BlockIR
