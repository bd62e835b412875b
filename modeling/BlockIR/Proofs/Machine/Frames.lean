import BlockIR.Machine.Run
import Mathlib.Tactic.Common

/-!
# Frames on the value stack

A frame that fits a body has one slot for each place that the body declares, and no two places share
one. The operations of the machine are described by what they do to the frames and to the values.
-/

namespace BlockIR

namespace Body

/-- The position of a place among the slots of a frame. -/
def rank (b : Body) : Place → Nat
  | .result => 0
  | .arg i => 1 + i.toNat
  | .var i => 1 + b.args.toNat + i.toNat
  | .temp i => 1 + b.args.toNat + b.vars.toNat + i.toNat

lemma rank_lt_frameSize {b : Body} {p : Place} (h : b.declares p) : b.rank p < b.frameSize := by
  cases p <;> simp only [declares, decide_eq_true_eq, UInt32.lt_iff_toNat_lt] at h <;>
    simp only [rank, frameSize] <;> omega

lemma rank_injective {b : Body} {p q : Place} (hp : b.declares p) (hq : b.declares q)
    (h : b.rank p = b.rank q) : p = q := by
  cases p <;> cases q <;>
    simp only [declares, decide_eq_true_eq, UInt32.lt_iff_toNat_lt] at hp hq <;>
    simp only [rank] at h <;>
    first
      | rfl
      | (exfalso; omega)
      | (congr 1; apply UInt32.toNat_inj.1; omega)

end Body

namespace Frame

/-- A frame has the slots that a body asks for. -/
structure Fits (fr : Frame) (b : Body) : Prop where
  args : fr.args = b.args.toNat
  vars : fr.vars = b.vars.toNat
  temps : fr.temps = b.temps.toNat

lemma fits_ofBody (f : FuncId) (b : Body) (offset : Nat) (returnTo : Option (Nat × BlockId)) :
    (ofBody f b offset returnTo).Fits b := ⟨rfl, rfl, rfl⟩

namespace Fits

variable {fr : Frame} {b : Body}

lemma size_eq (h : fr.Fits b) : fr.size = b.frameSize := by
  simp only [size, Body.frameSize, h.args, h.vars, h.temps]

lemma slot?_eq (h : fr.Fits b) (p : Place) :
    fr.slot? p = if b.declares p then some (fr.offset + b.rank p) else none := by
  cases p <;>
    simp only [slot?, Body.declares, Body.rank, h.args, h.vars, UInt32.lt_iff_toNat_lt, h.temps,
      decide_eq_true_eq, if_true, Nat.add_zero, Nat.add_assoc]

lemma jump (h : fr.Fits b) (target : BlockId) : ({ fr with block := target } : Frame).Fits b :=
  ⟨h.args, h.vars, h.temps⟩

end Fits

lemma length_initialSlots (fr : Frame) {args : List Value} (h : args.length = fr.args) :
    (fr.initialSlots args).length = fr.size := by
  simp only [initialSlots, size, List.length_cons, List.length_append, List.length_replicate, h]
  omega

end Frame

namespace CallStack

@[simp] lemma frames_empty : empty.frames = [] := rfl

@[simp] lemma frames_push (fr : Frame) (s : CallStack) : (s.push fr).frames = fr :: s.frames := rfl

@[simp] lemma frames_pop (s : CallStack) : s.pop.frames = s.frames.tail := rfl

lemma frames_jump (b : BlockId) {s : CallStack} {fr : Frame} {frs : List Frame}
    (h : s.frames = fr :: frs) : (s.jump b).frames = { fr with block := b } :: frs := by
  obtain ⟨frames, depth, hd⟩ := s
  cases frames with
  | nil => simp at h
  | cons a as =>
    obtain ⟨rfl, rfl⟩ := List.cons.inj h
    rfl

lemma top?_eq {s : CallStack} {fr : Frame} {frs : List Frame} (h : s.frames = fr :: frs) :
    s.top? = some fr := by
  simp only [top?, h, List.head?_cons]

lemma top?_eq_none {s : CallStack} (h : s.frames = []) : s.top? = none := by
  simp only [top?, h, List.head?_nil]

end CallStack

namespace Machine

variable (x : Setting) (s : Machine)

lemma depth_eq_length : s.depth = s.calls.frames.length := s.calls.depth_eq

section Fields

variable (e : Event) (i : Nat) (v : Value) (b : BlockId) (fr : Frame) (args : List Value)

@[simp] lemma record_calls : (s.record e).calls = s.calls := rfl

@[simp] lemma record_values : (s.record e).values = s.values := rfl

@[simp] lemma record_steps : (s.record e).steps = s.steps := rfl

@[simp] lemma writeSlot_calls : (s.writeSlot i v).calls = s.calls := rfl

@[simp] lemma writeSlot_values : (s.writeSlot i v).values = s.values.setIfInBounds i v := rfl

@[simp] lemma writeSlot_steps : (s.writeSlot i v).steps = s.steps := rfl

@[simp] lemma jump_calls : (s.jump b).calls = s.calls.jump b := rfl

@[simp] lemma jump_values : (s.jump b).values = s.values := rfl

@[simp] lemma jump_steps : (s.jump b).steps = s.steps := rfl

@[simp] lemma enter_calls : (s.enter x fr args).calls = s.calls.push fr := rfl

@[simp] lemma enter_values : (s.enter x fr args).values = s.values ++ fr.initialSlots args := rfl

@[simp] lemma enter_steps : (s.enter x fr args).steps = s.steps := rfl

@[simp] lemma leave_calls : (s.leave x fr).calls = s.calls.pop := rfl

@[simp] lemma leave_values : (s.leave x fr).values = s.values.shrink fr.offset := rfl

@[simp] lemma leave_steps : (s.leave x fr).steps = s.steps := rfl

end Fields

lemma beginCall_calls : s.beginCall.calls = s.calls := by
  unfold beginCall
  split <;> rfl

lemma beginCall_values : s.beginCall.values = s.values := by
  unfold beginCall
  split <;> rfl

/-- What a new frame is, and what has to hold for there to be one. -/
lemma newFrame_eq_ok {x : Setting} {s : Machine} {f : FuncId} {args : List Value}
    {returnTo : Option (Nat × BlockId)} {fr : Frame} (h : s.newFrame x f args returnTo = .ok fr) :
    ∃ function, x.module.get? f = some function ∧ args.length = function.body.args.toNat ∧
      s.depth < x.config.maxDepth ∧ fr = .ofBody f function.body s.values.size returnTo := by
  unfold newFrame at h
  split at h
  · simp at h
  · next function hf =>
    simp only at h
    split_ifs at h with hc hd
    exact ⟨function, hf, not_not.1 hc, Nat.lt_of_not_le hd, (Except.ok.inj h).symm⟩

end Machine

end BlockIR
