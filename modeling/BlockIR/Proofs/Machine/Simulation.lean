import BlockIR.Proofs.Machine.Activation
import BlockIR.Proofs.Machine.Frames

/-!
# Activations on the machine

The slots of the innermost frame hold the locals of an activation. Reading and writing through absolute
slots agrees with the map of the activation, and leaves alone what lies under the frame; so does each step
of the machine.
-/

namespace BlockIR

namespace Locals

variable {b : Body} (l : Locals b) {p : Place}

lemma require_eq_ok (h : b.declares p) : l.require p = .ok () := if_pos h

lemma require_eq_error (h : ¬b.declares p) : l.require p = .error (.undeclaredLocal p) := if_neg h

lemma read_eq_ok (h : b.declares p) : l.read p = .ok (l ⟨p, h⟩) := dif_pos h

lemma read_eq_error (h : ¬b.declares p) : l.read p = .error (.undeclaredLocal p) := dif_neg h

lemma declares_of_callee {f : Operand} {args : List Operand} {r : FuncId × List Value}
    (h : l.callee p f args = .ok r) : b.declares p := by
  by_contra hp
  simp only [callee, l.require_eq_error hp, bind, Except.bind, reduceCtorEq] at h

end Locals

namespace Machine

/-- The innermost frame is an activation with these locals. The frames under it are `callers`, and the
values under its slots are `below`. -/
structure Shows (s : Machine) (fr : Frame) (callers : List Frame) (below : List Value) {b : Body}
    (l : Locals b) : Prop where
  frames : s.calls.frames = fr :: callers
  fits : fr.Fits b
  offset : fr.offset = below.length
  size : s.values.size = below.length + b.frameSize
  under : s.values.toList.take below.length = below
  holds : ∀ p (h : b.declares p), s.values[below.length + b.rank p]? = some (l ⟨p, h⟩)

namespace Shows

variable {s : Machine} {fr : Frame} {callers : List Frame} {below : List Value} {b : Body} {l : Locals b}

lemma of_eq {s' : Machine} (h : s.Shows fr callers below l) (hc : s'.calls.frames = s.calls.frames)
    (hv : s'.values = s.values) : s'.Shows fr callers below l :=
  ⟨hc.trans h.frames, h.fits, h.offset, hv ▸ h.size, hv ▸ h.under, hv ▸ h.holds⟩

lemma top? (h : s.Shows fr callers below l) : s.calls.top? = some fr := CallStack.top?_eq h.frames

lemma depth_eq (h : s.Shows fr callers below l) : s.depth = callers.length + 1 := by
  rw [depth_eq_length, h.frames, List.length_cons]

lemma slot_eq_ok (h : s.Shows fr callers below l) {p : Place} (hp : b.declares p) :
    s.slot p = .ok (below.length + b.rank p) := by
  simp only [slot, h.top?, h.fits.slot?_eq, hp, if_true, h.offset]

lemma slot_eq_error (h : s.Shows fr callers below l) {p : Place} (hp : ¬b.declares p) :
    s.slot p = .error (.undeclaredLocal p) := by
  simp only [slot, h.top?, h.fits.slot?_eq, hp, Bool.false_eq_true, if_false]

lemma readPlace_eq (h : s.Shows fr callers below l) (p : Place) : s.readPlace p = l.read p := by
  by_cases hp : b.declares p
  · rw [l.read_eq_ok hp]
    simp only [readPlace, h.slot_eq_ok hp, bind, Except.bind, pure, Except.pure, readSlot,
      Array.getD_eq_getD_getElem?, h.holds p hp, Option.getD_some]
  · rw [l.read_eq_error hp]
    simp only [readPlace, h.slot_eq_error hp, bind, Except.bind]

lemma operand_eq (h : s.Shows fr callers below l) (o : Operand) : s.operand o = l.operand o := by
  cases o with
  | read p => exact h.readPlace_eq p
  | const c => rfl
  | func f => rfl

lemma rvalue_eq (h : s.Shows fr callers below l) (r : Rvalue) : s.rvalue r = l.rvalue r := by
  cases r with
  | use o => exact h.operand_eq o
  | binary op a c => simp only [rvalue, Locals.rvalue, h.operand_eq]
  | unary op a => simp only [rvalue, Locals.rvalue, h.operand_eq]

/-- Writing to the slot of a place is assigning to the place: no other place has that slot. -/
lemma writeSlot (h : s.Shows fr callers below l) {p : Place} (hp : b.declares p) (v : Value) :
    (s.writeSlot (below.length + b.rank p) v).Shows fr callers below (l.set p v) where
  frames := h.frames
  fits := h.fits
  offset := h.offset
  size := by simp only [writeSlot_values, Array.size_setIfInBounds, h.size]
  under := by
    rw [writeSlot_values, Array.toList_setIfInBounds, List.take_set_of_le (by omega), h.under]
  holds q hq := by
    have hlt := Body.rank_lt_frameSize hp
    rw [writeSlot_values, Array.getElem?_setIfInBounds]
    by_cases hqp : q = p
    · subst hqp
      simp only [if_true, h.size, Nat.add_lt_add_iff_left, hlt, Locals.set]
    · have hne : ¬below.length + b.rank p = below.length + b.rank q := fun he =>
        hqp (Body.rank_injective hq hp (by omega))
      simp only [hne, if_false, h.holds q hq, Locals.set, hqp]

lemma jump (h : s.Shows fr callers below l) (target : BlockId) :
    (s.jump target).Shows { fr with block := target } callers below l :=
  ⟨CallStack.frames_jump target h.frames, h.fits.jump target, h.offset, h.size, h.under, h.holds⟩

lemma branchTarget_eq (h : s.Shows fr callers below l) (c : Operand) (t e : BlockId) :
    s.branchTarget c t e = l.branch c t e := by
  unfold branchTarget Locals.branch
  rw [h.operand_eq]
  rcases l.operand c with _ | v
  · rfl
  · rcases v with _ | (_ | _) | _ | _ <;> rfl

end Shows

lemma select_eq (v : Value) (cases : List Constant) (targets : List BlockId) :
    Locals.select v cases targets = (do
      match targets[← firstMatch v cases]? with
      | some b => return b
      | none => .error (.noMatchingCase v)) := by
  have front_eq : ∀ ts : List BlockId, Locals.front v ts =
      match ts[0]? with
      | some b => .ok b
      | none => .error (.noMatchingCase v) := by
    intro ts
    cases ts <;> rfl
  induction cases generalizing targets with
  | nil => exact front_eq targets
  | cons c cs ih =>
    unfold Locals.select firstMatch
    rcases c.value with _ | w
    · rfl
    · simp only [bind, Except.bind, pure, Except.pure]
      by_cases hw : w = v
      · simp only [hw, if_true]
        exact front_eq targets
      · simp only [hw, if_false, ih]
        rcases firstMatch v cs with _ | n
        · rfl
        · simp only [bind, Except.bind, pure, Except.pure, List.getElem?_tail]

lemma Shows.switchTarget_eq {s : Machine} {fr : Frame} {callers : List Frame} {below : List Value}
    {b : Body} {l : Locals b} (h : s.Shows fr callers below l) (p : Place) (cases : List Constant)
    (targets : List BlockId) :
    s.switchTarget p cases targets = (l.read p >>= fun v => Locals.select v cases targets) := by
  unfold switchTarget
  rw [h.readPlace_eq]
  exact congrArg (l.read p >>= ·) (funext fun v => (select_eq v cases targets).symm)

lemma shows_enter (x : Setting) (s : Machine) (g : FuncId) {b : Body} {args : List Value}
    (returnTo : Option (Nat × BlockId)) (ha : args.length = b.args.toNat) :
    (s.enter x (.ofBody g b s.values.size returnTo) args).Shows (.ofBody g b s.values.size returnTo)
      s.calls.frames s.values.toList (Locals.initial b args) := by
  have hfits := Frame.fits_ofBody g b s.values.size returnTo
  have hlen := Frame.length_initialSlots (.ofBody g b s.values.size returnTo) ha
  refine ⟨rfl, hfits, Array.length_toList.symm, ?_, ?_, ?_⟩
  · rw [enter_values, ← Array.length_toList, Array.toList_appendList, List.length_append, hlen, hfits.size_eq]
  · rw [enter_values, Array.toList_appendList, List.take_left]
  · intro p hp
    rw [enter_values, ← Array.getElem?_toList, Array.toList_appendList,
      List.getElem?_append_right (Nat.le_add_right _ _), Nat.add_sub_cancel_left]
    simp only [Frame.initialSlots, Frame.ofBody, List.cons_append]
    cases p with
    | result => rfl
    | arg i =>
      have hi : i.toNat < args.length := by
        rw [ha]
        exact UInt32.lt_iff_toNat_lt.1 (of_decide_eq_true hp)
      simp only [Body.rank, Nat.add_comm 1, List.getElem?_cons_succ, List.getElem?_append_left hi,
        Locals.initial, List.getD_eq_getElem?_getD, List.getElem?_eq_getElem hi, Option.getD_some]
    | var i =>
      have hi : i.toNat < b.vars.toNat := UInt32.lt_iff_toNat_lt.1 (of_decide_eq_true hp)
      have he : b.rank (.var i) = i.toNat + args.length + 1 := by
        simp only [Body.rank, ha]
        omega
      rw [he, List.getElem?_cons_succ, List.getElem?_append_right (by omega),
        List.getElem?_replicate_of_lt (by omega)]
      rfl
    | temp i =>
      have hi : i.toNat < b.temps.toNat := UInt32.lt_iff_toNat_lt.1 (of_decide_eq_true hp)
      have he : b.rank (.temp i) = b.vars.toNat + i.toNat + args.length + 1 := by
        simp only [Body.rank, ha]
        omega
      rw [he, List.getElem?_cons_succ, List.getElem?_append_right (by omega),
        List.getElem?_replicate_of_lt (by omega)]
      rfl

end Machine

end BlockIR
