import BlockIR.Proofs.Machine.Activation
import BlockIR.Proofs.Machine.Effects
import BlockIR.Proofs.Machine.Operations

/-!
# Calls leave no trace

A call works above the frames and the slots that it finds. So whether it returns or fails, and at whatever
depth it does, the call stack and the value stack are afterwards what they were before.
-/

namespace BlockIR.Machine

/-- The frame of a further call: it lies above the first `bottom` slots, and so does the slot that takes its
result. -/
def IsFurther (bottom : Nat) (fr : Frame) : Prop :=
  bottom ≤ fr.offset ∧ ∃ i target, fr.returnTo = some (i, target) ∧ bottom ≤ i

/-- Over the frames that were there stands the frame of a call, and over that those of further calls. -/
def Covers (old : Machine) (frames : List Frame) : Prop :=
  ∃ inner entry, frames = inner ++ entry :: old.calls.frames ∧ entry.offset = old.values.size ∧
    entry.returnTo = none ∧ ∀ fr ∈ inner, IsFurther old.values.size fr

/-- Inside of a call on a machine: what the stacks of that machine held is under what the call has added. -/
structure Inside (old s : Machine) : Prop where
  frames : Covers old s.calls.frames
  under : s.values.toList.take old.values.size = old.values.toList

namespace Inside

variable {x : Setting} {old s s' : Machine} {fr : Frame}

lemma of_sameStacks (h : Inside old s) (hs : SameStacks s s') : Inside old s' :=
  ⟨hs.calls ▸ h.frames, hs.values ▸ h.under⟩

lemma size_le (h : Inside old s) : old.values.size ≤ s.values.size := by
  have hlen := congrArg List.length h.under
  rw [List.length_take, Array.length_toList, Array.length_toList] at hlen
  omega

lemma top (h : Inside old s) (htop : s.calls.top? = some fr) :
    (s.calls.frames.tail = old.calls.frames ∧ fr.offset = old.values.size ∧ fr.returnTo = none) ∨
      (Covers old s.calls.frames.tail ∧ IsFurther old.values.size fr) := by
  obtain ⟨inner, entry, hframes, hoffset, hreturn, hinner⟩ := h.frames
  rw [CallStack.top?, hframes] at htop
  rw [hframes]
  cases inner with
  | nil =>
    cases htop
    exact .inl ⟨rfl, hoffset, hreturn⟩
  | cons fr' inner =>
    cases htop
    rw [List.forall_mem_cons] at hinner
    exact .inr ⟨⟨inner, entry, rfl, hoffset, hreturn, hinner.2⟩, hinner.1⟩

lemma offset_le (h : Inside old s) (htop : s.calls.top? = some fr) : old.values.size ≤ fr.offset := by
  rcases h.top htop with ⟨-, hoffset, -⟩ | ⟨-, hfurther⟩
  · exact Nat.le_of_eq hoffset.symm
  · exact hfurther.1

lemma slot_le (h : Inside old s) {p : Place} {i : Nat} (hslot : s.slot p = .ok i) :
    old.values.size ≤ i := by
  obtain ⟨fr, htop, hi⟩ := slot_eq_ok_iff.1 hslot
  exact Nat.le_trans (h.offset_le htop) (Frame.offset_le_of_slot? hi)

lemma writeSlot (h : Inside old s) {i : Nat} (hi : old.values.size ≤ i) (v : Value) :
    Inside old (s.writeSlot i v) := by
  refine ⟨h.frames, ?_⟩
  rw [writeSlot_values, Array.toList_setIfInBounds, List.take_set_of_le hi, h.under]

lemma jump (h : Inside old s) (target : BlockId) : Inside old (s.jump target) := by
  obtain ⟨inner, entry, hframes, hoffset, hreturn, hinner⟩ := h.frames
  refine ⟨?_, h.under⟩
  cases inner with
  | nil =>
    exact ⟨[], { entry with block := target }, CallStack.frames_jump target hframes, hoffset, hreturn, hinner⟩
  | cons fr inner =>
    rw [List.forall_mem_cons] at hinner
    exact ⟨{ fr with block := target } :: inner, entry, CallStack.frames_jump target hframes, hoffset,
      hreturn, List.forall_mem_cons.2 hinner⟩

lemma enter (h : Inside old s) {f : FuncId} {args : List Value} {i : Nat} {target : BlockId}
    (hi : old.values.size ≤ i) (hnew : s.newFrame x f args (some (i, target)) = .ok fr) :
    Inside old (s.enter x fr args) := by
  obtain ⟨inner, entry, hframes, hoffset, hreturn, hinner⟩ := h.frames
  obtain ⟨function, -, -, -, rfl⟩ := newFrame_eq_ok hnew
  have hfurther : IsFurther old.values.size (.ofBody f function.body s.values.size (some (i, target))) :=
    ⟨h.size_le, i, target, rfl, hi⟩
  refine ⟨⟨_ :: inner, entry, ?_, hoffset, hreturn, List.forall_mem_cons.2 ⟨hfurther, hinner⟩⟩, ?_⟩
  · rw [enter_calls, CallStack.frames_push, hframes]
    rfl
  · have hsize := h.size_le
    rw [enter_values, Array.toList_appendList, List.take_append_of_le_length (by simpa using hsize), h.under]

lemma take_shrink (h : Inside old s) (htop : s.calls.top? = some fr) :
    (s.values.shrink fr.offset).toList.take old.values.size = old.values.toList := by
  rw [Array.toList_shrink, List.take_take, Nat.min_eq_left (h.offset_le htop), h.under]

lemma leave (h : Inside old s) (htop : s.calls.top? = some fr) {i : Nat} {target : BlockId}
    (hreturn : fr.returnTo = some (i, target)) : Inside old (s.leave x fr) ∧ old.values.size ≤ i := by
  rcases h.top htop with ⟨-, -, hnone⟩ | ⟨hframes, -, j, target', hj, hle⟩
  · rw [hnone] at hreturn
    cases hreturn
  · rw [hj] at hreturn
    cases hreturn
    exact ⟨⟨hframes, h.take_shrink htop⟩, hle⟩

end Inside

section Runs

variable {x : Setting} {old s s' : Machine} {c : Control}

lemma inside_enter {f : FuncId} {args : List Value} {fr : Frame}
    (hnew : s.newFrame x f args none = .ok fr) : Inside s (s.enter x fr args) := by
  obtain ⟨function, -, -, -, rfl⟩ := newFrame_eq_ok hnew
  refine ⟨⟨[], _, rfl, rfl, rfl, List.forall_mem_nil _⟩, ?_⟩
  rw [enter_values, Array.toList_appendList, ← Array.length_toList, List.take_left]

/-- A step stays inside of a call, or it returns from the call and leaves what was there before. -/
lemma Inside.step (h : Inside old s) (c : Control) :
    match s.step x old.depth c with
    | .running _ s' | .failed _ s' => Inside old s'
    | .returned _ s' => SameStacks old s' := by
  have heffect := effect_step x old.depth s c
  generalize s.step x old.depth c = r at heffect
  cases heffect with
  | keep hs => exact h.of_sameStacks hs
  | write hslot hs => exact (h.writeSlot (h.slot_le hslot) _).of_sameStacks hs
  | jump hs => exact (h.jump _).of_sameStacks hs
  | enter hslot hnew hs => exact (h.enter (h.slot_le hslot) hnew).of_sameStacks hs
  | goOn htop hreturn _ hs =>
    obtain ⟨hleave, hi⟩ := h.leave htop hreturn
    exact ((hleave.writeSlot hi _).jump _).of_sameStacks hs
  | finish htop hend hs =>
    rcases h.top htop with
      ⟨hframes, hoffset, -⟩ | ⟨⟨inner, entry, hframes, -⟩, -, i, target, hreturn, -⟩
    · have hunder := h.take_shrink htop
      rw [hoffset, Array.toList_shrink, List.take_take, Nat.min_self] at hunder
      refine ⟨CallStack.ext_frames ?_, ?_⟩
      · rw [hs.calls, leave_calls, CallStack.frames_pop, hframes]
      · rw [hs.values, leave_values, hoffset, ← Array.toList_inj, Array.toList_shrink, hunder]
    · have hdepth : s.depth - 1 = (inner ++ entry :: old.calls.frames).length := by
        rw [depth_eq_length, ← List.length_tail, hframes]
      rw [List.length_append, List.length_cons, ← depth_eq_length] at hdepth
      rw [hreturn] at hend
      rcases hend with hnone | hbase
      · cases hnone
      · omega
  | fail hs => exact h.of_sameStacks hs

/-- However many steps a run makes, it is inside of the call, unless it has returned from it. -/
lemma Inside.run (h : Inside old s) (fuel : Nat) (c : Control) :
    match run x old.depth fuel c s with
    | (.returned _, s') => SameStacks old s'
    | (_, s') => Inside old s' := by
  induction fuel generalizing c s with
  | zero => exact h
  | succ fuel ih =>
    have hnext := h.step (x := x) c
    unfold Machine.run
    cases hstep : s.step x old.depth c with
    | running c' s' =>
      rw [hstep] at hnext
      exact ih hnext c'
    | returned v s' =>
      rw [hstep] at hnext
      exact hnext
    | failed e s' =>
      rw [hstep] at hnext
      exact hnext

lemma Inside.truncate (h : Inside old s) :
    SameStacks old (s.truncate old.depth old.values.size) := by
  obtain ⟨inner, entry, hframes, -⟩ := h.frames
  refine ⟨CallStack.ext_frames ?_, ?_⟩
  · show s.calls.frames.drop (s.depth - old.depth) = old.calls.frames
    have hdepth : s.depth - old.depth = (inner ++ [entry]).length := by
      rw [depth_eq_length, depth_eq_length, hframes]
      simp only [List.length_append, List.length_cons, List.length_nil]
      omega
    rw [hdepth, hframes, List.append_cons inner entry old.calls.frames, List.drop_left]
  · show s.values.shrink old.values.size = old.values
    rw [← Array.toList_inj, Array.toList_shrink, h.under]

lemma sameStacks_callFor (x : Setting) (fuel : Nat) (f : FuncId) (args : List Value) (s : Machine) :
    SameStacks s (s.callFor x fuel f args).2 := by
  have hbegin := sameStacks_beginCall s
  have hdepth : s.beginCall.depth = s.depth := congrArg CallStack.depth hbegin.calls
  have hsize : s.beginCall.values.size = s.values.size := congrArg Array.size hbegin.values
  unfold callFor
  dsimp only
  cases hnew : s.beginCall.newFrame x f args none with
  | error e => exact hbegin
  | ok fr =>
    have hrun := (inside_enter hnew).run (x := x) fuel .start
    rw [hdepth] at hrun
    dsimp only
    rcases hr : run x s.depth fuel .start (s.beginCall.enter x fr args) with ⟨_ | e | _, s'⟩ <;>
      rw [hr] at hrun
    · exact hbegin.trans hrun
    · have hcut := Inside.truncate hrun
      rw [hdepth, hsize] at hcut
      exact hbegin.trans hcut
    · have hcut := Inside.truncate hrun
      rw [hdepth, hsize] at hcut
      exact hbegin.trans hcut

lemma sameStacks_call (x : Setting) (f : FuncId) (args : List Value) (s : Machine) :
    SameStacks s (s.call x f args).2 := by
  have hfor := sameStacks_callFor x x.config.fuel f args s
  unfold call
  rcases hr : s.callFor x x.config.fuel f args with ⟨_ | e | _, s'⟩ <;> rw [hr] at hfor <;> exact hfor

lemma sameStacks_callNamed (x : Setting) (name : String) (args : List Value) (s : Machine) :
    SameStacks s (s.callNamed x name args).2 := by
  unfold callNamed
  cases x.module.find? name with
  | none => exact .refl s
  | some f => exact sameStacks_call x f args s

/-- A call leaves the frames and the values of any machine as they were, contents of all slots included,
whether it returns or fails, and at whatever depth it fails. So does a push or a pop that fails. -/
theorem calls_and_failures_keep_stacks (x : Setting) (s : Machine) :
    (∀ f args, SameStacks s (s.call x f args).2) ∧
    (∀ name args, SameStacks s (s.callNamed x name args).2) ∧
    (∀ f args returnTo e s', s.tryPush x f args returnTo = some (.error e, s') → SameStacks s s') ∧
    ∀ e s', s.tryPop x = (.error e, s') → SameStacks s s' := by
  refine ⟨fun f args => sameStacks_call x f args s, fun name args => sameStacks_callNamed x name args s,
    fun f args returnTo e s' h => ?_, fun e s' h => ?_⟩
  · rw [tryPush_eq] at h
    cases hpush : s.push x f args returnTo with
    | ok s₁ =>
      rw [hpush] at h
      cases h
    | error e₁ =>
      rw [hpush] at h
      cases h
      exact .refl s
  · rw [tryPop_eq] at h
    cases hpop : s.pop x with
    | ok r =>
      rw [hpop] at h
      cases h
    | error e₁ =>
      rw [hpop] at h
      cases h
      exact .refl s

/-- A call that overflows the stack in its third activation, on a machine with a frame pushed by hand. That
frame would hand its result to its own slots. -/
theorem factorial_overflow_keeps_stacks :
    let x : Setting := ⟨.factorial, ⟨4, none⟩⟩
    ∃ s, fresh.push x ⟨0⟩ [.int 3] (some (1, ⟨1⟩)) = .ok s ∧ s.values.size = 4 ∧
      (s.call x ⟨0⟩ [.int 5]).1 = .error (.stackOverflow 4) ∧
      SameStacks s (s.call x ⟨0⟩ [.int 5]).2 ∧
      ∃ s', s.tryPush x ⟨0⟩ [] none = some (.error (.argumentCount "factorial" 1 0), s') ∧
        SameStacks s s' := by
  intro x
  obtain ⟨s, hs⟩ : ∃ s, fresh.push x ⟨0⟩ [.int 3] (some (1, ⟨1⟩)) = .ok s := ⟨_, rfl⟩
  cases hs
  obtain ⟨hcall, -, hpush, -⟩ := calls_and_failures_keep_stacks x _
  exact ⟨_, rfl, by decide +kernel, by decide +kernel, hcall _ _, _, rfl, hpush ⟨0⟩ [] none _ _ rfl⟩

end Runs

end BlockIR.Machine
