import BlockIR.Machine.Arithmetic
import Mathlib.Data.Int.Bitwise
import Mathlib.Tactic.Common

/-!
# Operators on integers

What the operators give on words, said of the integers that the words stand for: an exact result, or a fault
just where there is none.
-/

namespace BlockIR

/-- The integers that a signed word of 64 bits stands for. -/
def IsWord (n : Int) : Prop := -2 ^ 63 ≤ n ∧ n < 2 ^ 63

/-- The result is this integer. -/
def Gives (n : Int) (result : Except Fault Value) : Prop := ∃ w : Int64, result = .ok (.int w) ∧ w.toInt = n

/-- The result is this integer if a word stands for it, and an overflow of the operator if none does. -/
def GivesOrOverflows (op : String) (n : Int) (result : Except Fault Value) : Prop :=
  (IsWord n → Gives n result) ∧ (¬ IsWord n → result = .error (.overflow op))

/-- The bits of the result are these, for each position in a word. -/
def GivesBits (bit : Nat → Bool) (result : Except Fault Value) : Prop :=
  ∃ w : Int64, result = .ok (.int w) ∧ ∀ i < 64, w.toInt.testBit i = bit i

section Words

variable {n : Int} {v w : Int64}

lemma isWord_toInt (w : Int64) : IsWord w.toInt := ⟨w.le_toInt, w.toInt_lt⟩

lemma IsWord.bmod_eq (h : IsWord n) : n.bmod (2 ^ 64) = n := by
  obtain ⟨hlow, hhigh⟩ := h
  exact Int.bmod_eq_of_le_mul_two (by omega) (by omega)

lemma gives_int (h : w.toInt = n) : Gives n (.ok (.int w)) := ⟨w, rfl, h⟩

lemma toInt_eq_iff (hv : v.toInt = n) : w.toInt = n ↔ w = v := by rw [← hv, Int64.toInt_inj]

lemma testBit_toInt {i : Nat} (hi : i < 64) : w.toInt.testBit i = w.toBitVec.getLsbD i := by
  have hlt := w.toBitVec.isLt
  have htoInt : w.toInt = w.toBitVec.toInt := rfl
  rw [htoInt, BitVec.toInt_eq_msb_cond]
  cases w.toBitVec.msb with
  | false => rfl
  | true =>
    have hneg : (w.toBitVec.toNat : Int) - (2 ^ 64 : Nat) = Int.negSucc (2 ^ 64 - (w.toBitVec.toNat + 1)) := by
      omega
    rw [if_pos rfl, hneg]
    show (!(2 ^ 64 - (w.toBitVec.toNat + 1)).testBit i) = _
    rw [Nat.testBit_two_pow_sub_succ hlt]
    simp only [hi, decide_true, Bool.true_and, Bool.not_not]
    rfl

end Words

namespace BinOp

variable {op : BinOp} {l r w : Int64} {n : Int}

lemma givesOrOverflows_checked (h : w.toInt = n.bmod (2 ^ 64)) : GivesOrOverflows op.name n (op.checked w n) := by
  constructor
  · intro hn
    rw [hn.bmod_eq] at h
    rw [checked, if_pos h]
    exact gives_int h
  · intro hn
    have hne : w.toInt ≠ n := fun heq => hn (heq ▸ isWord_toInt w)
    rw [checked, if_neg hne]

section Division

lemma divided_eq_divisionByZero_iff : op.divided l r w = .error .divisionByZero ↔ r.toInt = 0 := by
  rw [toInt_eq_iff (n := 0) (v := 0) rfl, divided]
  split_ifs with hzero
  · exact iff_of_true rfl hzero
  · exact iff_of_false nofun hzero
  · exact iff_of_false nofun hzero

lemma divided_eq_overflow_iff :
    op.divided l r w = .error (.overflow op.name) ↔ l.toInt = -2 ^ 63 ∧ r.toInt = -1 := by
  rw [toInt_eq_iff (n := -2 ^ 63) (v := Int64.minValue) rfl, toInt_eq_iff (n := -1) (v := -1) rfl, divided]
  split_ifs with hzero hleast
  · subst hzero
    exact iff_of_false nofun (fun h => absurd h.2 (by decide))
  · exact iff_of_true rfl hleast
  · exact iff_of_false nofun hleast

lemma divided_eq_ok (hzero : r.toInt ≠ 0) (hleast : ¬(l.toInt = -2 ^ 63 ∧ r.toInt = -1)) :
    op.divided l r w = .ok (.int w) := by
  rw [ne_eq, toInt_eq_iff (n := 0) (v := 0) rfl] at hzero
  rw [toInt_eq_iff (n := -2 ^ 63) (v := Int64.minValue) rfl, toInt_eq_iff (n := -1) (v := -1) rfl] at hleast
  rw [divided, if_neg hzero, if_neg hleast]

lemma natAbs_tmod_lt (hzero : r.toInt ≠ 0) : (l.toInt.tmod r.toInt).natAbs < r.toInt.natAbs := by
  rw [Int.natAbs_tmod]
  exact Nat.mod_lt _ (Int.natAbs_pos.2 hzero)

lemma isWord_tdiv (hzero : r.toInt ≠ 0) (hleast : ¬(l.toInt = -2 ^ 63 ∧ r.toInt = -1)) :
    IsWord (l.toInt.tdiv r.toInt) := by
  obtain ⟨hlow, hhigh⟩ := isWord_toInt l
  obtain ⟨hlow', hhigh'⟩ := isWord_toInt r
  have hle := Int.natAbs_tdiv_le_natAbs l.toInt r.toInt
  have hlt := natAbs_tmod_lt (l := l) hzero
  have hsum := Int.mul_tdiv_add_tmod l.toInt r.toInt
  refine ⟨by omega, ?_⟩
  by_contra h
  have hquotient : l.toInt.tdiv r.toInt = 2 ^ 63 := by omega
  rw [hquotient] at hsum
  omega

end Division

section Shifts

lemma isAmount_iff : 0 ≤ r ∧ r < 64 ↔ 0 ≤ r.toInt ∧ r.toInt < 64 := by
  rw [Int64.le_iff_toInt_le, Int64.lt_iff_toInt_lt]
  rfl

lemma shifted_eq_overflow_iff :
    op.shifted r w = .error (.overflow op.name) ↔ ¬(0 ≤ r.toInt ∧ r.toInt < 64) := by
  rw [← isAmount_iff, shifted]
  split_ifs with h
  · exact iff_of_false nofun (not_not_intro h)
  · exact iff_of_true rfl h

lemma shifted_eq_ok (h : 0 ≤ r.toInt ∧ r.toInt < 64) : op.shifted r w = .ok (.int w) := by
  rw [shifted, if_pos (isAmount_iff.2 h)]

/-- Words are shifted by an amount reduced to their width. One that is less than the width stays as it is. -/
lemma smod_amount (h : 0 ≤ r.toInt ∧ r.toInt < 64) : r.toBitVec.smod 64 = r.toBitVec := by
  rw [← BitVec.toInt_inj, BitVec.toInt_smod]
  show r.toInt.fmod 64 = r.toInt
  exact Int.fmod_eq_of_lt h.1 h.2

lemma toNat_amount (h : 0 ≤ r.toInt) : r.toBitVec.toNat = r.toInt.toNat := by
  have htoInt : r.toInt = r.toBitVec.toInt := rfl
  have hcond := BitVec.toInt_eq_toNat_cond r.toBitVec
  have hlt := r.toBitVec.isLt
  rw [htoInt] at h ⊢
  split_ifs at hcond <;> omega

lemma toInt_shiftLeft (h : 0 ≤ r.toInt ∧ r.toInt < 64) :
    (l <<< r).toInt = (l.toInt * 2 ^ r.toInt.toNat).bmod (2 ^ 64) := by
  have hword : (l <<< r).toBitVec = l.toBitVec <<< r.toInt.toNat := by
    rw [Int64.toBitVec_shiftLeft, smod_amount h, BitVec.shiftLeft_eq', toNat_amount h.1]
  have hl : l.toInt = (l.toBitVec.toNat : Int).bmod (2 ^ 64) := BitVec.toInt_eq_toNat_bmod _
  calc (l <<< r).toInt = (l.toBitVec <<< r.toInt.toNat).toInt := congrArg BitVec.toInt hword
    _ = ((l.toBitVec.toNat * 2 ^ r.toInt.toNat : Nat) : Int).bmod (2 ^ 64) := by
      rw [BitVec.toInt_shiftLeft, Nat.shiftLeft_eq]
    _ = (l.toInt * 2 ^ r.toInt.toNat).bmod (2 ^ 64) := by
      rw [hl, Int.bmod_mul_bmod, Int.natCast_mul, Int.natCast_pow]
      rfl

lemma toInt_shiftRight (h : 0 ≤ r.toInt ∧ r.toInt < 64) :
    (l >>> r).toInt = l.toInt.fdiv (2 ^ r.toInt.toNat) := by
  have hword : (l >>> r).toBitVec = l.toBitVec.sshiftRight r.toInt.toNat := by
    rw [Int64.toBitVec_shiftRight, smod_amount h, BitVec.sshiftRight_eq', toNat_amount h.1]
  have hpos : (0 : Int) ≤ 2 ^ r.toInt.toNat := Int.pow_nonneg (by decide)
  calc (l >>> r).toInt = (l.toBitVec.sshiftRight r.toInt.toNat).toInt := congrArg BitVec.toInt hword
    _ = l.toInt / (2 ^ r.toInt.toNat : Nat) := by
      rw [BitVec.toInt_sshiftRight, Int.shiftRight_eq_div_pow]
      rfl
    _ = l.toInt.fdiv (2 ^ r.toInt.toNat) := by
      rw [Int.fdiv_eq_ediv_of_nonneg _ hpos, Int.natCast_pow]
      rfl

end Shifts

lemma givesBits {bit : Nat → Bool} (h : ∀ i < 64, w.toBitVec.getLsbD i = bit i) : GivesBits bit (.ok (.int w)) :=
  ⟨w, rfl, fun i hi => (testBit_toInt hi).trans (h i hi)⟩

end BinOp

lemma UnOp.neg_eval (l : Int64) :
    UnOp.neg.eval (.int l) = if l.toInt = -2 ^ 63 then .error (.overflow "Neg") else .ok (.int (-l)) := by
  simp only [toInt_eq_iff (n := -2 ^ 63) (v := Int64.minValue) rfl]
  rfl

/-- What the operators have to give on two words, said of the integers that the words stand for. The quotient is
rounded towards zero, so that the remainder has the sign of the dividend. -/
structure ExactOn (l r : Int64) : Prop where
  add : GivesOrOverflows "Add" (l.toInt + r.toInt) (BinOp.add.eval (.int l) (.int r))
  sub : GivesOrOverflows "Sub" (l.toInt - r.toInt) (BinOp.sub.eval (.int l) (.int r))
  mul : GivesOrOverflows "Mul" (l.toInt * r.toInt) (BinOp.mul.eval (.int l) (.int r))
  divisionByZero : ∀ op ∈ [BinOp.div, .rem], op.eval (.int l) (.int r) = .error .divisionByZero ↔ r.toInt = 0
  divisionOverflow : ∀ op ∈ [BinOp.div, .rem],
    op.eval (.int l) (.int r) = .error (.overflow op.name) ↔ l.toInt = -2 ^ 63 ∧ r.toInt = -1
  division : r.toInt ≠ 0 → ¬(l.toInt = -2 ^ 63 ∧ r.toInt = -1) → ∃ q m : Int,
    Gives q (BinOp.div.eval (.int l) (.int r)) ∧ Gives m (BinOp.rem.eval (.int l) (.int r)) ∧
      l.toInt = q * r.toInt + m ∧ m.natAbs < r.toInt.natAbs ∧ (m = 0 ∨ m.sign = l.toInt.sign)
  shiftOverflow : ∀ op ∈ [BinOp.shl, .shr],
    op.eval (.int l) (.int r) = .error (.overflow op.name) ↔ ¬(0 ≤ r.toInt ∧ r.toInt < 64)
  shl : 0 ≤ r.toInt ∧ r.toInt < 64 →
    Gives ((l.toInt * 2 ^ r.toInt.toNat).bmod (2 ^ 64)) (BinOp.shl.eval (.int l) (.int r))
  shr : 0 ≤ r.toInt ∧ r.toInt < 64 →
    Gives (l.toInt.fdiv (2 ^ r.toInt.toNat)) (BinOp.shr.eval (.int l) (.int r))
  bitAnd : GivesBits (fun i => l.toInt.testBit i && r.toInt.testBit i) (BinOp.bitAnd.eval (.int l) (.int r))
  bitOr : GivesBits (fun i => l.toInt.testBit i || r.toInt.testBit i) (BinOp.bitOr.eval (.int l) (.int r))
  bitXor : GivesBits (fun i => l.toInt.testBit i ^^ r.toInt.testBit i) (BinOp.bitXor.eval (.int l) (.int r))
  eq : BinOp.eq.eval (.int l) (.int r) = .ok (.bool (l.toInt = r.toInt))
  ne : BinOp.ne.eval (.int l) (.int r) = .ok (.bool (l.toInt ≠ r.toInt))
  lt : BinOp.lt.eval (.int l) (.int r) = .ok (.bool (l.toInt < r.toInt))
  le : BinOp.le.eval (.int l) (.int r) = .ok (.bool (l.toInt ≤ r.toInt))
  gt : BinOp.gt.eval (.int l) (.int r) = .ok (.bool (l.toInt > r.toInt))
  ge : BinOp.ge.eval (.int l) (.int r) = .ok (.bool (l.toInt ≥ r.toInt))
  not : Gives (-l.toInt - 1) (UnOp.not.eval (.int l))
  negOverflow : UnOp.neg.eval (.int l) = .error (.overflow "Neg") ↔ l.toInt = -2 ^ 63
  neg : l.toInt ≠ -2 ^ 63 → Gives (-l.toInt) (UnOp.neg.eval (.int l))

/-- The operators on words are those on the integers that the words stand for, with a fault just where there is no
result or where no word stands for it. -/
theorem operators_exact (l r : Int64) : ExactOn l r where
  add := BinOp.givesOrOverflows_checked (Int64.toInt_add l r)
  sub := BinOp.givesOrOverflows_checked (Int64.toInt_sub l r)
  mul := BinOp.givesOrOverflows_checked (Int64.toInt_mul l r)
  divisionByZero := List.forall_mem_cons.2
    ⟨BinOp.divided_eq_divisionByZero_iff, List.forall_mem_singleton.2 BinOp.divided_eq_divisionByZero_iff⟩
  divisionOverflow := List.forall_mem_cons.2
    ⟨BinOp.divided_eq_overflow_iff, List.forall_mem_singleton.2 BinOp.divided_eq_overflow_iff⟩
  division := by
    intro hzero hleast
    refine ⟨l.toInt.tdiv r.toInt, l.toInt.tmod r.toInt, ?_, ?_, ?_, ?_, ?_⟩
    · show Gives _ (BinOp.divided .div l r (l / r))
      rw [BinOp.divided_eq_ok hzero hleast]
      refine gives_int ?_
      rw [Int64.toInt_div, (BinOp.isWord_tdiv hzero hleast).bmod_eq]
    · show Gives _ (BinOp.divided .rem l r (l % r))
      rw [BinOp.divided_eq_ok hzero hleast]
      exact gives_int (Int64.toInt_mod l r)
    · exact (Int.tdiv_mul_add_tmod l.toInt r.toInt).symm
    · exact BinOp.natAbs_tmod_lt hzero
    · rw [Int.sign_tmod]
      split_ifs with hdvd
      · exact .inl (Int.tmod_eq_zero_of_dvd hdvd)
      · exact .inr rfl
  shiftOverflow := List.forall_mem_cons.2
    ⟨BinOp.shifted_eq_overflow_iff, List.forall_mem_singleton.2 BinOp.shifted_eq_overflow_iff⟩
  shl := by
    intro h
    show Gives _ (BinOp.shifted .shl r (l <<< r))
    rw [BinOp.shifted_eq_ok h]
    exact gives_int (BinOp.toInt_shiftLeft h)
  shr := by
    intro h
    show Gives _ (BinOp.shifted .shr r (l >>> r))
    rw [BinOp.shifted_eq_ok h]
    exact gives_int (BinOp.toInt_shiftRight h)
  bitAnd := BinOp.givesBits fun i hi => by
    rw [Int64.toBitVec_and, BitVec.getLsbD_and, testBit_toInt hi, testBit_toInt hi]
  bitOr := BinOp.givesBits fun i hi => by
    rw [Int64.toBitVec_or, BitVec.getLsbD_or, testBit_toInt hi, testBit_toInt hi]
  bitXor := BinOp.givesBits fun i hi => by
    rw [Int64.toBitVec_xor, BitVec.getLsbD_xor, testBit_toInt hi, testBit_toInt hi]
  eq := by simp only [Int64.toInt_inj, BinOp.eval, BinOp.evalInt]
  ne := by simp only [ne_eq, Int64.toInt_inj, BinOp.eval, BinOp.evalInt]
  lt := by simp only [← Int64.lt_iff_toInt_lt, BinOp.eval, BinOp.evalInt]
  le := by simp only [← Int64.le_iff_toInt_le, BinOp.eval, BinOp.evalInt]
  gt := by simp only [gt_iff_lt, ← Int64.lt_iff_toInt_lt, BinOp.eval, BinOp.evalInt]
  ge := by simp only [ge_iff_le, ← Int64.le_iff_toInt_le, BinOp.eval, BinOp.evalInt]
  not := by
    have hword : IsWord (-l.toInt - 1) := by
      obtain ⟨hlow, hhigh⟩ := isWord_toInt l
      constructor <;> omega
    refine gives_int ?_
    rw [Int64.toInt_not, hword.bmod_eq]
  negOverflow := by
    rw [UnOp.neg_eval]
    split_ifs with h
    · exact iff_of_true rfl h
    · exact iff_of_false nofun h
  neg := by
    intro h
    have hword : IsWord (-l.toInt) := by
      obtain ⟨hlow, hhigh⟩ := isWord_toInt l
      constructor <;> omega
    rw [UnOp.neg_eval, if_neg h]
    refine gives_int ?_
    rw [Int64.toInt_neg, hword.bmod_eq]

example : BinOp.div.eval (.int (-7)) (.int 2) = .ok (.int (-3)) ∧
    BinOp.rem.eval (.int (-7)) (.int 2) = .ok (.int (-1)) := by decide

end BlockIR
