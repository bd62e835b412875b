import BlockIR.Proofs.Machine.DepthLimit

/-!
# Runs above other frames

A call on a machine that already has frames does what it does on a new machine, only further up: its frames
stand above the old ones, and its slots behind the old slots. The limits that the old frames leave for it are
those of the new machine.
-/

namespace BlockIR

/-- The frame, moved up by a number of slots. -/
def Frame.raise (n : Nat) (fr : Frame) : Frame :=
  { fr with offset := n + fr.offset, returnTo := fr.returnTo.map fun r => (n + r.1, r.2) }

def Move.raise (n : Nat) : Move → Move
  | jump b => jump b
  | enter fr args => enter (fr.raise n) args
  | leave v => leave v

/-- The fault, with the limits of a configuration in place of its own. -/
def Fault.renumber (c : Config) : Fault → Fault
  | stackOverflow _ => stackOverflow c.maxDepth
  | stepLimit _ => stepLimit c.budget
  | e => e

/-- The outcome, with the limits of a configuration in place of its own. -/
def Outcome.renumber (c : Config) : Outcome → Outcome
  | returned v => returned v
  | failed e => failed (e.renumber c)
  | unfinished => unfinished

/-- The limits that are left above some frames, after some steps. -/
def Config.remaining (c : Config) (depth steps : Nat) : Config :=
  ⟨c.maxDepth - depth, c.stepLimit.map (· - steps)⟩

lemma Fault.renumber_of_not_limit {e : Fault} (h : e.isLimit = false) (c : Config) : e.renumber c = e := by
  cases e <;> first | rfl | cases h

lemma Frame.slot?_raise (n : Nat) (fr : Frame) (p : Place) :
    (fr.raise n).slot? p = (fr.slot? p).map (n + ·) := by
  cases p with
  | result => rfl
  | arg i => simp only [slot?, raise, apply_ite (Option.map _), Option.map_some, Option.map_none, Nat.add_assoc]
  | var i => simp only [slot?, raise, apply_ite (Option.map _), Option.map_some, Option.map_none, Nat.add_assoc]
  | temp i => simp only [slot?, raise, apply_ite (Option.map _), Option.map_some, Option.map_none, Nat.add_assoc]

lemma Config.exceeded?_remaining_eq_none_iff (c : Config) (depth k n : Nat) :
    (c.remaining depth k).exceeded? (n + 1) = none ↔ c.exceeded? (k + n + 1) = none := by
  rw [exceeded?_eq_none_iff, exceeded?_eq_none_iff]
  constructor
  · intro h limit hlimit
    have hleft := h (limit - k) (Option.map_eq_some_iff.2 ⟨limit, hlimit, rfl⟩)
    omega
  · intro h left hleft
    obtain ⟨limit, hlimit, rfl⟩ := Option.map_eq_some_iff.1 hleft
    have hle := h limit hlimit
    omega

lemma Config.budget_of_exceeded {c : Config} {n limit : Nat} (h : c.exceeded? n = some limit) :
    c.budget = limit := by
  rw [budget, (Option.filter_eq_some_iff.1 h).1, Option.getD_some]

namespace Machine

/-- One machine is another one on top of an old machine. -/
structure Above (old : Machine) (k : Nat) (s t : Machine) : Prop where
  frames : s.calls.frames = t.calls.frames.map (Frame.raise old.values.size) ++ old.calls.frames
  values : s.values = old.values ++ t.values
  steps : s.steps = k + t.steps

namespace Above

variable {x y : Setting} {old s t : Machine} {k : Nat} {fr : Frame} {frs : List Frame}

lemma of_eq (h : Above old k s t) {s' t' : Machine} (hs : SameStacks s s') (ht : SameStacks t t')
    (hsteps : s'.steps = k + t'.steps) : Above old k s' t' := by
  refine ⟨?_, ?_, hsteps⟩
  · rw [hs.calls, ht.calls, h.frames]
  · rw [hs.values, ht.values, h.values]

lemma depth (h : Above old k s t) : s.depth = old.depth + t.depth := by
  rw [depth_eq_length, depth_eq_length, depth_eq_length, h.frames, List.length_append, List.length_map,
    Nat.add_comm]

lemma top (h : Above old k s t) (htop : t.calls.frames = fr :: frs) :
    s.calls.top? = some (fr.raise old.values.size) := by
  rw [CallStack.top?, h.frames, htop]
  rfl

lemma slot (h : Above old k s t) (htop : t.calls.frames = fr :: frs) (p : Place) :
    s.slot p = (t.slot p).map (old.values.size + ·) := by
  simp only [Machine.slot, h.top htop, CallStack.top?_eq htop, Frame.slot?_raise]
  cases fr.slot? p <;> rfl

lemma readSlot (h : Above old k s t) (i : Nat) : s.readSlot (old.values.size + i) = t.readSlot i := by
  rw [Machine.readSlot, Machine.readSlot, h.values, Array.getD_eq_getD_getElem?, Array.getD_eq_getD_getElem?,
    Array.getElem?_append_right (Nat.le_add_right _ _), Nat.add_sub_cancel_left]

lemma readPlace (h : Above old k s t) (htop : t.calls.frames = fr :: frs) (p : Place) :
    s.readPlace p = t.readPlace p := by
  simp only [Machine.readPlace, h.slot htop]
  cases t.slot p with
  | error e => rfl
  | ok i => exact congrArg Except.ok (h.readSlot i)

lemma operand (h : Above old k s t) (htop : t.calls.frames = fr :: frs) (o : Operand) :
    s.operand o = t.operand o := by
  cases o with
  | read p => exact h.readPlace htop p
  | const c => rfl
  | func f => rfl

lemma rvalue (h : Above old k s t) (htop : t.calls.frames = fr :: frs) (r : Rvalue) :
    s.rvalue r = t.rvalue r := by
  cases r with
  | use o => exact h.operand htop o
  | binary op a b => simp only [Machine.rvalue, h.operand htop]
  | unary op a => simp only [Machine.rvalue, h.operand htop]

lemma write? (h : Above old k s t) (htop : t.calls.frames = fr :: frs) (a : Action) :
    s.write? a = (t.write? a).map (Option.map fun w => (old.values.size + w.1, w.2)) := by
  cases a with
  | assign p r =>
    simp only [Machine.write?, h.slot htop, h.rvalue htop]
    cases t.slot p with
    | error e => rfl
    | ok i => cases t.rvalue r <;> rfl
  | drop kind p =>
    simp only [Machine.write?, h.slot htop]
    cases t.slot p <;> rfl

lemma called (h : Above old k s t) (htop : t.calls.frames = fr :: frs) (p : Place) (callee : Operand)
    (args : List Operand) :
    s.called p callee args = (t.called p callee args).map fun c => (old.values.size + c.1, c.2) := by
  have hoperand : s.operand = t.operand := funext (h.operand htop)
  simp only [Machine.called, h.slot htop, hoperand]
  cases t.slot p with
  | error e => rfl
  | ok i =>
    cases t.operand callee with
    | error e => rfl
    | ok v =>
      cases v with
      | func f => cases args.mapM t.operand <;> rfl
      | uninit => rfl
      | bool b => rfl
      | int n => rfl

lemma newFrame (h : Above old k s t) (m : Module) (c : Config) (f : FuncId) (args : List Value)
    (returnTo : Option (Nat × BlockId)) :
    s.newFrame ⟨m, c⟩ f args (returnTo.map fun r => (old.values.size + r.1, r.2)) =
      ((t.newFrame ⟨m, c.remaining old.depth k⟩ f args returnTo).map (Frame.raise old.values.size)).mapError
        (Fault.renumber c) := by
  unfold Machine.newFrame
  cases m.get? f with
  | none => rfl
  | some function =>
    dsimp only
    by_cases hargs : args.length ≠ function.body.args.toNat
    · rw [if_pos hargs, if_pos hargs]
      rfl
    rw [if_neg hargs, if_neg hargs]
    have hdepth : c.maxDepth ≤ s.depth ↔ (c.remaining old.depth k).maxDepth ≤ t.depth := by
      rw [h.depth, Config.remaining, Nat.sub_le_iff_le_add']
    by_cases hfull : c.maxDepth ≤ s.depth
    · rw [if_pos hfull, if_pos (hdepth.1 hfull)]
      rfl
    · rw [if_neg hfull, if_neg (mt hdepth.2 hfull)]
      refine congrArg Except.ok ?_
      rw [Frame.ofBody, h.values, Array.size_append]
      rfl

lemma branchTarget (h : Above old k s t) (htop : t.calls.frames = fr :: frs) (c : Operand)
    (onTrue onFalse : BlockId) : s.branchTarget c onTrue onFalse = t.branchTarget c onTrue onFalse := by
  simp only [Machine.branchTarget, h.operand htop]

lemma switchTarget (h : Above old k s t) (htop : t.calls.frames = fr :: frs) (p : Place)
    (cases : List Constant) (targets : List BlockId) :
    s.switchTarget p cases targets = t.switchTarget p cases targets := by
  simp only [Machine.switchTarget, h.readPlace htop]

lemma move_of_not_call (h : Above old k s t) (htop : t.calls.frames = fr :: frs) {tr : Transfer}
    (htr : ∀ p f args b, tr ≠ .call p f args b) (n : Nat) :
    s.move x tr = (t.move y tr).map (Move.raise n) := by
  cases tr with
  | ret =>
    simp only [Machine.move, h.readPlace htop]
    cases t.readPlace .result <;> rfl
  | goto b => rfl
  | branch c onTrue onFalse =>
    simp only [Machine.move, h.branchTarget htop]
    cases t.branchTarget c onTrue onFalse <;> rfl
  | switch p cases targets =>
    simp only [Machine.move, h.switchTarget htop]
    cases t.switchTarget p cases targets <;> rfl
  | call p f args b => exact absurd rfl (htr p f args b)
  | diverge => rfl
  | panic b => rfl

lemma move (h : Above old k s t) (htop : t.calls.frames = fr :: frs) (m : Module) (c : Config)
    (tr : Transfer) :
    s.move ⟨m, c⟩ tr =
      ((t.move ⟨m, c.remaining old.depth k⟩ tr).map (Move.raise old.values.size)).mapError
        (Fault.renumber c) := by
  by_cases hcall : ∃ p f args b, tr = .call p f args b
  · obtain ⟨p, f, args, b, rfl⟩ := hcall
    simp only [Machine.move, callMove_eq_called, h.called htop]
    have hlimit := t.noLimit_called p f args
    cases hcalled : t.called p f args with
    | error e =>
      rw [hcalled] at hlimit
      exact (congrArg Except.error (Fault.renumber_of_not_limit (hlimit e rfl) c)).symm
    | ok r =>
      have hnew := h.newFrame m c r.2.1 r.2.2 (some (r.1, b))
      simp only [Option.map_some] at hnew
      simp only [Except.map, bind, Except.bind, hnew]
      cases t.newFrame ⟨m, c.remaining old.depth k⟩ r.2.1 r.2.2 (some (r.1, b)) <;> rfl
  · have htr : ∀ p f args b, tr ≠ .call p f args b := fun p f args b htr => hcall ⟨p, f, args, b, htr⟩
    rw [h.move_of_not_call (y := ⟨m, c.remaining old.depth k⟩) htop htr old.values.size]
    have hlimit := t.noLimit_move_of_not_call (x := ⟨m, c.remaining old.depth k⟩) htr
    cases hmove : t.move ⟨m, c.remaining old.depth k⟩ tr with
    | error e => exact (congrArg Except.error (Fault.renumber_of_not_limit (hlimit e hmove) c)).symm
    | ok mv => rfl

lemma counted (h : Above old k s t) (name : BlockId) (code : Action ⊕ Transfer) :
    Above old k (s.counted name code) (t.counted name code) :=
  h.of_eq ⟨rfl, rfl⟩ ⟨rfl, rfl⟩ (congrArg (· + 1) h.steps)

lemma writeSlot (h : Above old k s t) (i : Nat) (v : Value) :
    Above old k (s.writeSlot (old.values.size + i) v) (t.writeSlot i v) := by
  refine ⟨h.frames, ?_, h.steps⟩
  rw [writeSlot_values, writeSlot_values, h.values, Array.setIfInBounds_append_right (Nat.le_add_right _ _),
    Nat.add_sub_cancel_left]

lemma jump (h : Above old k s t) (htop : t.calls.frames = fr :: frs) (b : BlockId) :
    Above old k (s.jump b) (t.jump b) := by
  refine ⟨?_, h.values, h.steps⟩
  have hs : s.calls.frames = fr.raise old.values.size :: (frs.map (Frame.raise old.values.size) ++
      old.calls.frames) := by rw [h.frames, htop, List.map_cons, List.cons_append]
  rw [jump_calls, jump_calls, CallStack.frames_jump b hs, CallStack.frames_jump b htop]
  rfl

lemma enter (h : Above old k s t) (fr : Frame) (args : List Value) :
    Above old k (s.enter x (fr.raise old.values.size) args) (t.enter y fr args) := by
  refine ⟨?_, ?_, h.steps⟩
  · rw [enter_calls, enter_calls, CallStack.frames_push, CallStack.frames_push, h.frames, List.map_cons,
      List.cons_append]
  · rw [enter_values, enter_values, h.values, ← Array.toList_inj]
    simp only [Array.toList_appendList, Array.toList_append, List.append_assoc]
    rfl

lemma leave (h : Above old k s t) (htop : t.calls.frames = fr :: frs) :
    Above old k (s.leave x (fr.raise old.values.size)) (t.leave y fr) := by
  refine ⟨?_, ?_, h.steps⟩
  · rw [leave_calls, leave_calls, CallStack.frames_pop, CallStack.frames_pop, h.frames, htop, List.map_cons,
      List.cons_append, List.tail_cons, List.tail_cons]
  · rw [leave_values, leave_values, h.values, ← Array.toList_inj]
    simp only [Array.toList_shrink, Array.toList_append, Frame.raise]
    rw [← Array.length_toList, List.take_length_add_append]

end Above

/-- A step and the same step further up lead to the same, moved up. -/
inductive Raised (c : Config) (old : Machine) (k : Nat) : Progress → Progress → Prop
  | running {ctl : Control} {s t : Machine} (h : Above old k s t) (hpos : 0 < t.depth) :
    Raised c old k (.running ctl s) (.running ctl t)
  | returned {v : Value} {s t : Machine} (hsteps : s.steps = k + t.steps) :
    Raised c old k (.returned v s) (.returned v t)
  | failed {e : Fault} {s t : Machine} (hsteps : s.steps = k + t.steps) :
    Raised c old k (.failed (e.renumber c) s) (.failed e t)

lemma Raised.failed_of_not_limit {c : Config} {old s t : Machine} {k : Nat} {e : Fault} (h : e.isLimit = false)
    (hsteps : s.steps = k + t.steps) : Raised c old k (.failed e s) (.failed e t) := by
  have hfailed : Raised c old k (.failed (e.renumber c) s) (.failed e t) := .failed hsteps
  rwa [Fault.renumber_of_not_limit h] at hfailed

lemma exists_frame_of_depth_pos {t : Machine} (h : 0 < t.depth) : ∃ fr frs, t.calls.frames = fr :: frs := by
  rw [depth_eq_length] at h
  exact List.exists_cons_of_length_pos h

namespace Above

variable {m : Module} {c : Config} {old s t : Machine} {k : Nat}

lemma return_ (h : Above old k s t) (hpos : 0 < t.depth) (x y : Setting) (v : Value) :
    Raised c old k (s.return_ x old.depth v) (t.return_ y 0 v) := by
  obtain ⟨fr, frs, htop⟩ := exists_frame_of_depth_pos hpos
  have hleave := h.leave (x := x) (y := y) htop
  have hdepth := hleave.depth
  have hraise : (fr.raise old.values.size).returnTo = fr.returnTo.map fun r => (old.values.size + r.1, r.2) := rfl
  unfold Machine.return_
  rw [h.top htop, CallStack.top?_eq htop]
  dsimp only
  rw [hraise]
  cases fr.returnTo with
  | none => exact .returned hleave.steps
  | some r =>
    obtain ⟨i, b⟩ := r
    dsimp only [Option.map_some]
    by_cases hgo : 0 < (t.leave y fr).depth
    · obtain ⟨fr', frs', htop'⟩ := exists_frame_of_depth_pos hgo
      rw [if_pos hgo, if_pos (by omega)]
      refine .running ((hleave.writeSlot i v).jump htop' b) ?_
      rw [jump_depth]
      exact hgo
    · rw [if_neg hgo, if_neg (by omega)]
      exact .returned hleave.steps

lemma apply (h : Above old k s t) (hpos : 0 < t.depth) (x y : Setting) (mv : Move) :
    Raised c old k (s.apply x old.depth (mv.raise old.values.size)) (t.apply y 0 mv) := by
  cases mv with
  | jump b =>
    obtain ⟨fr, frs, htop⟩ := exists_frame_of_depth_pos hpos
    refine .running (h.jump htop b) ?_
    rw [jump_depth]
    exact hpos
  | enter fr args => exact .running (h.enter fr args) (Nat.succ_pos _)
  | leave v => exact h.return_ hpos x y v

lemma execute (h : Above old k s t) (hpos : 0 < t.depth) (name : BlockId) (rest : List Statement)
    (tm : Terminator) :
    Raised c old k (s.step ⟨m, c⟩ old.depth (.within name rest tm))
      (t.step ⟨m, c.remaining old.depth k⟩ 0 (.within name rest tm)) := by
  obtain ⟨fr, frs, htop⟩ := exists_frame_of_depth_pos hpos
  have hexceeded := c.exceeded?_remaining_eq_none_iff old.depth k t.steps
  rw [← h.steps] at hexceeded
  cases ht : (c.remaining old.depth k).exceeded? (t.steps + 1) with
  | some limit =>
    obtain ⟨limit', hs⟩ : ∃ limit', c.exceeded? (s.steps + 1) = some limit' := by
      rw [← Option.isSome_iff_exists, ← Option.ne_none_iff_isSome, Ne, ← hexceeded, ht]
      exact Option.some_ne_none limit
    rw [step_of_exceeded (x := ⟨m, c⟩) hs, step_of_exceeded (x := ⟨m, c.remaining old.depth k⟩) ht,
      ← Config.budget_of_exceeded hs]
    exact .failed (e := .stepLimit limit) (congrArg (· + 1) h.steps)
  | none =>
    have hs := hexceeded.1 ht
    cases rest with
    | cons st rest =>
      have hcounted := h.counted name (.inl st.action)
      rw [step_cons (x := ⟨m, c⟩) hs, step_cons (x := ⟨m, c.remaining old.depth k⟩) ht,
        hcounted.write? htop]
      cases hwrite : (t.counted name (.inl st.action)).write? st.action with
      | error e => exact .failed_of_not_limit (noLimit_write? _ _ _ hwrite) hcounted.steps
      | ok w =>
        cases w with
        | none => exact .running hcounted hpos
        | some w => exact .running (hcounted.writeSlot w.1 w.2) hpos
    | nil =>
      have hcounted := h.counted name (.inr tm.transfer)
      rw [step_nil (x := ⟨m, c⟩) hs, step_nil (x := ⟨m, c.remaining old.depth k⟩) ht,
        hcounted.move htop]
      cases (t.counted name (.inr tm.transfer)).move ⟨m, c.remaining old.depth k⟩ tm.transfer with
      | error e => exact .failed hcounted.steps
      | ok mv => exact hcounted.apply hpos _ _ mv

lemma currentBlock (h : Above old k s t) (hpos : 0 < t.depth) :
    s.currentBlock ⟨m, c⟩ = t.currentBlock ⟨m, c.remaining old.depth k⟩ := by
  obtain ⟨fr, frs, htop⟩ := exists_frame_of_depth_pos hpos
  unfold Machine.currentBlock
  rw [h.top htop, CallStack.top?_eq htop]
  rfl

/-- A step further up is the step of the new machine, moved up. -/
lemma step (h : Above old k s t) (hpos : 0 < t.depth) (ctl : Control) :
    Raised c old k (s.step ⟨m, c⟩ old.depth ctl) (t.step ⟨m, c.remaining old.depth k⟩ 0 ctl) := by
  cases ctl with
  | within name rest tm => exact h.execute hpos name rest tm
  | start =>
    have hblock := h.currentBlock (m := m) (c := c) hpos
    cases ht : t.currentBlock ⟨m, c.remaining old.depth k⟩ with
    | error e =>
      rw [step_start_of_error ht, step_start_of_error (hblock.trans ht)]
      exact .failed_of_not_limit (noLimit_currentBlock _ _ _ ht) h.steps
    | ok b =>
      rw [step_start_of_ok ht, step_start_of_ok (hblock.trans ht)]
      exact h.execute hpos b.1 b.2.statements b.2.terminator

/-- A run further up is the run of the new machine, moved up. -/
lemma run (h : Above old k s t) (hpos : 0 < t.depth) (fuel : Nat) (ctl : Control) :
    (run ⟨m, c⟩ old.depth fuel ctl s).1 =
      (run ⟨m, c.remaining old.depth k⟩ 0 fuel ctl t).1.renumber c ∧
    (run ⟨m, c⟩ old.depth fuel ctl s).2.steps =
      k + (run ⟨m, c.remaining old.depth k⟩ 0 fuel ctl t).2.steps := by
  induction fuel generalizing ctl s t with
  | zero => exact ⟨rfl, h.steps⟩
  | succ fuel ih =>
    have hstep := h.step (m := m) (c := c) hpos ctl
    rw [run_succ, run_succ]
    generalize s.step ⟨m, c⟩ old.depth ctl = r at hstep
    generalize t.step ⟨m, c.remaining old.depth k⟩ 0 ctl = r' at hstep
    cases hstep with
    | running hnext hpos' => exact ih hnext hpos' _
    | returned hsteps => exact ⟨rfl, hsteps⟩
    | failed hsteps => exact ⟨rfl, hsteps⟩

end Above

/-- What the limits of a setting leave for a call on a machine: its frames count, and so do its steps if there
are frames. -/
def remaining (x : Setting) (s : Machine) : Setting :=
  ⟨x.module, if s.depth = 0 then x.config else x.config.remaining s.depth s.steps⟩

section Calls

variable (x : Setting) (f : FuncId) (args : List Value) (s : Machine)

lemma remaining_eq : s.remaining x = ⟨x.module, x.config.remaining s.depth s.beginCall.steps⟩ := by
  obtain ⟨m, ⟨maxDepth, stepLimit⟩⟩ := x
  by_cases hs : s.depth = 0
  · rw [remaining, if_pos hs, beginCall_steps hs, hs]
    cases stepLimit <;> rfl
  · rw [remaining, if_neg hs, beginCall, if_neg hs]

lemma above_fresh : Above s s.beginCall.steps s.beginCall fresh := by
  refine ⟨?_, ?_, rfl⟩
  · rw [beginCall_calls]
    rfl
  · rw [beginCall_values]
    exact (Array.append_empty).symm

/-- A call that runs for some number of steps does what it does on a new machine with the remaining limits. -/
lemma callFor_raised (fuel : Nat) :
    (s.callFor x fuel f args).1 = (fresh.callFor (s.remaining x) fuel f args).1.renumber x.config ∧
    (s.callFor x fuel f args).2.steps =
      s.beginCall.steps + (fresh.callFor (s.remaining x) fuel f args).2.steps := by
  have habove := above_fresh s
  have hnew := habove.newFrame x.module x.config f args none
  rw [← remaining_eq] at hnew
  cases hfresh : fresh.newFrame (s.remaining x) f args none with
  | error e =>
    rw [hfresh] at hnew
    rw [callFor_of_refused hnew, callFor_of_refused (s := fresh) hfresh]
    exact ⟨rfl, rfl⟩
  | ok fr =>
    rw [hfresh] at hnew
    rw [callFor_of_entered hnew, callFor_of_entered (s := fresh) hfresh, unwind_steps, unwind_steps]
    have hrun := (habove.enter (x := x) (y := s.remaining x) fr args).run (m := x.module) (c := x.config)
      (Nat.succ_pos _) fuel .start
    rw [← remaining_eq] at hrun
    exact hrun

lemma stepLimit_remaining {l : Nat} (h : x.config.stepLimit = some l) :
    (s.remaining x).config.stepLimit = some (l - s.beginCall.steps) := by
  rw [remaining_eq, Config.remaining, h, Option.map_some]

lemma callFor_fuel_remaining :
    fresh.callFor (s.remaining x) x.config.fuel f args =
      fresh.callFor (s.remaining x) (s.remaining x).config.fuel f args := by
  cases hlimit : x.config.stepLimit with
  | none =>
    have hleft : (s.remaining x).config.stepLimit = none := by
      rw [remaining_eq, Config.remaining, hlimit, Option.map_none]
    simp only [Config.fuel, hlimit, hleft]
  | some l =>
    have hleft := s.stepLimit_remaining x hlimit
    simp only [Config.fuel, hlimit, hleft]
    refine callFor_mono ?_ rfl (callFor_ne_unfinished hleft)
    omega

lemma call_raised :
    (s.call x f args).1 = (fresh.call (s.remaining x) f args).1.mapError (Fault.renumber x.config) ∧
    (s.call x f args).2.steps = s.beginCall.steps + (fresh.call (s.remaining x) f args).2.steps := by
  obtain ⟨hresult, hsteps⟩ := callFor_raised x f args s x.config.fuel
  rw [callFor_fuel_remaining] at hresult hsteps
  rw [call_eq, call_eq]
  refine ⟨?_, hsteps⟩
  show resultOf _ = (resultOf _).mapError _
  rw [hresult]
  cases hfresh : (fresh.callFor (s.remaining x) (s.remaining x).config.fuel f args).1 with
  | returned v => rfl
  | failed e => rfl
  | unfinished =>
    cases hlimit : x.config.stepLimit with
    | none =>
      have hbudget : x.config.budget = Config.maxSteps := by rw [Config.budget, hlimit, Option.getD_none]
      exact congrArg (Except.error ∘ Fault.stepLimit) hbudget.symm
    | some l =>
      have hleft := s.stepLimit_remaining x hlimit
      have hfinished : (fresh.callFor (s.remaining x) (l - s.beginCall.steps + 1) f args).1 ≠ .unfinished :=
        callFor_ne_unfinished hleft
      simp only [Config.fuel, hleft] at hfresh
      exact absurd hfresh hfinished

lemma call_fresh (hs : s.depth = 0) :
    (s.call x f args).1 = (fresh.call x f args).1 ∧
    (s.call x f args).2.steps = (fresh.call x f args).2.steps := by
  obtain ⟨hresult, hsteps⟩ := call_raised x f args s
  have hown : (fresh.call x f args).1 = (fresh.call x f args).1.mapError (Fault.renumber x.config) :=
    (call_raised x f args fresh).1
  have hx : s.remaining x = x := by rw [remaining, if_pos hs]
  rw [hx] at hresult hsteps
  rw [beginCall_steps hs, Nat.zero_add] at hsteps
  exact ⟨hresult.trans hown.symm, hsteps⟩

end Calls

end Machine

end BlockIR
