import BlockIR.Proofs.Machine.Counting
import BlockIR.Proofs.Machine.Effects
import BlockIR.Proofs.Machine.Operators

/-!
# What limits change

Limits are looked at in two places: when a step is counted, and when a frame is pushed. So two runs with
different limits go through the same points until one of them is cut off.
-/

namespace BlockIR

/-- A result that is not a fault of a limit. -/
def NoLimit {α : Type} (r : Except Fault α) : Prop := ∀ e, r = .error e → e.isLimit = false

section NoLimit

variable {α β : Type}

lemma noLimit_ok (a : α) : NoLimit (.ok a) := by
  intro e h
  cases h

lemma noLimit_error {e : Fault} (h : e.isLimit = false) : NoLimit (.error e : Except Fault α) := by
  intro e' he
  cases he
  exact h

lemma NoLimit.bind {r : Except Fault α} {k : α → Except Fault β} (h : NoLimit r) (hk : ∀ a, NoLimit (k a)) :
    NoLimit (r >>= k) := by
  cases r with
  | ok a => exact hk a
  | error e => exact noLimit_error (h e rfl)

lemma NoLimit.mapM {k : α → Except Fault β} (h : ∀ a, NoLimit (k a)) (xs : List α) : NoLimit (xs.mapM k) := by
  induction xs with
  | nil => exact noLimit_ok []
  | cons a xs ih =>
    rw [List.mapM_cons]
    exact (h a).bind fun _ => ih.bind fun _ => noLimit_ok _

lemma Computed.noLimit {r : Except Fault Value} (h : Computed r) : NoLimit r := by
  cases h with
  | int n => exact noLimit_ok _
  | bool b => exact noLimit_ok _
  | @fault e he =>
    refine noLimit_error ?_
    cases e <;> first | rfl | cases he

end NoLimit

namespace Machine

/-- The slot of the destination, the function and the arguments of a call. -/
def called (s : Machine) (p : Place) (callee : Operand) (args : List Operand) :
    Except Fault (Nat × FuncId × List Value) := do
  let i ← s.slot p
  match ← s.operand callee with
  | .func f => return (i, f, ← args.mapM s.operand)
  | v => .error (.nonFunctionCall v)

section Evaluation

variable (s : Machine)

lemma noLimit_slot (p : Place) : NoLimit (s.slot p) := by
  unfold slot
  split
  · exact noLimit_error rfl
  · split
    · exact noLimit_ok _
    · exact noLimit_error rfl

lemma noLimit_readPlace (p : Place) : NoLimit (s.readPlace p) :=
  (s.noLimit_slot p).bind fun _ => noLimit_ok _

lemma noLimit_operand (o : Operand) : NoLimit (s.operand o) := by
  cases o with
  | read p => exact s.noLimit_readPlace p
  | const c => exact c.computed_value.noLimit
  | func f => exact noLimit_ok _

lemma noLimit_rvalue (r : Rvalue) : NoLimit (s.rvalue r) := by
  cases r with
  | use o => exact s.noLimit_operand o
  | binary op a b =>
    refine (s.noLimit_operand a).bind fun v => (s.noLimit_operand b).bind fun w => ?_
    exact (op.computed_eval v w).noLimit
  | unary op a => exact (s.noLimit_operand a).bind fun v => (op.computed_eval v).noLimit

lemma noLimit_write? (a : Action) : NoLimit (s.write? a) := by
  cases a with
  | assign p r => exact (s.noLimit_slot p).bind fun _ => (s.noLimit_rvalue r).bind fun _ => noLimit_ok _
  | drop k p =>
    simp only [write?]
    cases hslot : s.slot p with
    | error e => exact noLimit_error (s.noLimit_slot p e hslot)
    | ok i => exact noLimit_ok _

lemma noLimit_branchTarget (c : Operand) (t e : BlockId) : NoLimit (s.branchTarget c t e) := by
  refine (s.noLimit_operand c).bind fun v => ?_
  cases v with
  | bool b => exact noLimit_ok _
  | uninit => exact noLimit_error rfl
  | int n => exact noLimit_error rfl
  | func f => exact noLimit_error rfl

lemma noLimit_firstMatch (v : Value) (cases : List Constant) : NoLimit (firstMatch v cases) := by
  induction cases with
  | nil => exact noLimit_ok 0
  | cons c cs ih =>
    refine c.computed_value.noLimit.bind fun w => ?_
    split_ifs
    · exact noLimit_ok 0
    · exact ih.bind fun _ => noLimit_ok _

lemma noLimit_switchTarget (p : Place) (cases : List Constant) (targets : List BlockId) :
    NoLimit (s.switchTarget p cases targets) := by
  refine (s.noLimit_readPlace p).bind fun v => (noLimit_firstMatch v cases).bind fun i => ?_
  split
  · exact noLimit_ok _
  · exact noLimit_error rfl

lemma noLimit_called (p : Place) (callee : Operand) (args : List Operand) :
    NoLimit (s.called p callee args) := by
  refine (s.noLimit_slot p).bind fun i => (s.noLimit_operand callee).bind fun v => ?_
  cases v with
  | func f => exact (NoLimit.mapM s.noLimit_operand args).bind fun _ => noLimit_ok _
  | uninit => exact noLimit_error rfl
  | bool b => exact noLimit_error rfl
  | int n => exact noLimit_error rfl

lemma callMove_eq_called (x : Setting) (p : Place) (callee : Operand) (args : List Operand)
    (target : BlockId) :
    s.callMove x p callee args target = s.called p callee args >>= fun c =>
      (s.newFrame x c.2.1 c.2.2 (some (c.1, target))).map (.enter · c.2.2) := by
  unfold callMove called
  cases s.slot p with
  | error e => rfl
  | ok i =>
    cases s.operand callee with
    | error e => rfl
    | ok v =>
      cases v with
      | func f => cases args.mapM s.operand <;> rfl
      | uninit => rfl
      | bool b => rfl
      | int n => rfl

lemma noLimit_move_of_not_call {x : Setting} {t : Transfer} (h : ∀ p f args b, t ≠ .call p f args b) :
    NoLimit (s.move x t) := by
  cases t with
  | ret => exact (s.noLimit_readPlace .result).bind fun _ => noLimit_ok _
  | goto b => exact noLimit_ok _
  | branch c t e => exact (s.noLimit_branchTarget c t e).bind fun _ => noLimit_ok _
  | switch p cases targets => exact (s.noLimit_switchTarget p cases targets).bind fun _ => noLimit_ok _
  | call p f args b => exact absurd rfl (h p f args b)
  | diverge => exact noLimit_error rfl
  | panic b => exact noLimit_error rfl

end Evaluation

lemma isLimit_of_newFrame {x : Setting} {s : Machine} {f : FuncId} {args : List Value}
    {returnTo : Option (Nat × BlockId)} {e : Fault} (h : s.newFrame x f args returnTo = .error e) :
    e.isLimit = false ∨ e = .stackOverflow x.config.maxDepth := by
  unfold newFrame at h
  split at h
  · cases h
    exact .inl rfl
  · dsimp only at h
    split_ifs at h
    · cases h
      exact .inl rfl
    · cases h
      exact .inr rfl

lemma isLimit_of_move {x : Setting} {s : Machine} {t : Transfer} {e : Fault} (h : s.move x t = .error e) :
    e.isLimit = false ∨ e = .stackOverflow x.config.maxDepth := by
  by_cases hcall : ∃ p f args b, t = .call p f args b
  · obtain ⟨p, f, args, b, rfl⟩ := hcall
    rw [move, callMove_eq_called] at h
    cases hcalled : s.called p f args with
    | error e' =>
      rw [hcalled] at h
      cases h
      exact .inl (s.noLimit_called p f args _ hcalled)
    | ok c =>
      rw [hcalled] at h
      cases hnew : s.newFrame x c.2.1 c.2.2 (some (c.1, b)) with
      | error e' =>
        simp only [bind, Except.bind, hnew, Except.map, Except.error.injEq] at h
        exact h ▸ isLimit_of_newFrame hnew
      | ok fr =>
        simp only [bind, Except.bind, hnew, Except.map, reduceCtorEq] at h
  · refine .inl (s.noLimit_move_of_not_call (fun p f args b ht => ?_) e h)
    exact hcall ⟨p, f, args, b, ht⟩

lemma noLimit_currentBlock (x : Setting) (s : Machine) : NoLimit (s.currentBlock x) := by
  unfold currentBlock
  split
  · exact noLimit_error rfl
  · split
    · exact noLimit_error rfl
    · split
      · exact noLimit_error rfl
      · exact noLimit_ok _

lemma isLimit_of_apply_failed {x : Setting} {base : Nat} {s s' : Machine} {m : Move} {e : Fault}
    (h : s.apply x base m = .failed e s') : e.isLimit = false := by
  cases m with
  | jump b => cases h
  | enter fr args => cases h
  | leave v =>
    unfold apply return_ at h
    dsimp only at h
    split at h
    · cases h
      rfl
    · split at h
      · split_ifs at h
      · cases h

lemma isLimit_of_step_failed {x : Setting} {base : Nat} {c : Control} {s s' : Machine} {e : Fault}
    (h : s.step x base c = .failed e s') :
    e.isLimit = false ∨ e = .stackOverflow x.config.maxDepth ∨
      ∃ limit, x.config.exceeded? (s.steps + 1) = some limit ∧ e = .stepLimit limit := by
  have within : ∀ name rest t, s.step x base (.within name rest t) = .failed e s' →
      e.isLimit = false ∨ e = .stackOverflow x.config.maxDepth ∨
        ∃ limit, x.config.exceeded? (s.steps + 1) = some limit ∧ e = .stepLimit limit := by
    intro name rest t h
    cases hlimit : x.config.exceeded? (s.steps + 1) with
    | some limit =>
      rw [step_of_exceeded hlimit] at h
      cases h
      exact .inr (.inr ⟨limit, rfl, rfl⟩)
    | none =>
      cases rest with
      | cons st rest =>
        rw [step_cons hlimit] at h
        split at h
        · next hwrite =>
          cases h
          exact .inl (noLimit_write? _ _ _ hwrite)
        · cases h
        · cases h
      | nil =>
        rw [step_nil hlimit] at h
        split at h
        · next hmove =>
          cases h
          exact (isLimit_of_move hmove).imp_right .inl
        · exact .inl (isLimit_of_apply_failed h)
  cases c with
  | within name rest t => exact within name rest t h
  | start =>
    cases hblock : s.currentBlock x with
    | error e' =>
      rw [step_start_of_error hblock] at h
      cases h
      exact .inl (s.noLimit_currentBlock x e hblock)
    | ok b =>
      rw [step_start_of_ok hblock] at h
      exact within _ _ _ h

section Settings

variable {m : Module} {a b : Config} {base : Nat} {s : Machine}

/-- The depth of a machine does not exceed the lower one of two limits, if they differ. -/
def WithinDepth (a b : Config) (s : Machine) : Prop :=
  a.maxDepth = b.maxDepth ∨ a.maxDepth < b.maxDepth ∧ s.depth ≤ a.maxDepth

/-- One more frame is too many for the lower limit, and not for the higher one. -/
structure Full (a b : Config) (s : Machine) : Prop where
  lt : a.maxDepth < b.maxDepth
  depth : s.depth = a.maxDepth

lemma newFrame_same_or_cut (h : s.WithinDepth a b) (f : FuncId) (args : List Value)
    (returnTo : Option (Nat × BlockId)) :
    s.newFrame ⟨m, a⟩ f args returnTo = s.newFrame ⟨m, b⟩ f args returnTo ∨
      s.Full a b ∧ s.newFrame ⟨m, a⟩ f args returnTo = .error (.stackOverflow a.maxDepth) ∧
        ∃ fr, s.newFrame ⟨m, b⟩ f args returnTo = .ok fr := by
  unfold newFrame
  cases m.get? f with
  | none => exact .inl rfl
  | some function =>
    dsimp only
    by_cases hargs : args.length ≠ function.body.args.toNat
    · rw [if_pos hargs, if_pos hargs]
      exact .inl rfl
    rw [if_neg hargs, if_neg hargs]
    rcases h with heq | ⟨hlt, hle⟩
    · rw [heq]
      exact .inl rfl
    · have hb : ¬b.maxDepth ≤ s.depth := by omega
      rw [if_neg hb]
      by_cases ha : a.maxDepth ≤ s.depth
      · rw [if_pos ha]
        exact .inr ⟨⟨hlt, Nat.le_antisymm hle ha⟩, rfl, _, rfl⟩
      · rw [if_neg ha]
        exact .inl rfl

lemma move_same_or_cut (h : s.WithinDepth a b) (t : Transfer) :
    s.move ⟨m, a⟩ t = s.move ⟨m, b⟩ t ∨
      s.Full a b ∧ s.move ⟨m, a⟩ t = .error (.stackOverflow a.maxDepth) ∧
        ∃ fr args, s.move ⟨m, b⟩ t = .ok (.enter fr args) := by
  cases t with
  | call p callee args target =>
    simp only [move, callMove_eq_called]
    cases s.called p callee args with
    | error e => exact .inl rfl
    | ok c =>
      simp only [bind, Except.bind]
      rcases newFrame_same_or_cut (m := m) h c.2.1 c.2.2 (some (c.1, target)) with heq | ⟨hfull, ha, fr, hb⟩
      · rw [heq]
        exact .inl rfl
      · rw [ha, hb]
        exact .inr ⟨hfull, rfl, fr, c.2.2, rfl⟩
  | ret => exact .inl rfl
  | goto b => exact .inl rfl
  | branch c t e => exact .inl rfl
  | switch p cases targets => exact .inl rfl
  | diverge => exact .inl rfl
  | panic b => exact .inl rfl

lemma step_same_or_cut (hsteps : a.exceeded? (s.steps + 1) = b.exceeded? (s.steps + 1))
    (hdepth : s.WithinDepth a b) (base : Nat) (c : Control) :
    s.step ⟨m, a⟩ base c = s.step ⟨m, b⟩ base c ∨
      s.Full a b ∧ (∃ s', s.step ⟨m, a⟩ base c = .failed (.stackOverflow a.maxDepth) s') ∧
        ∃ s', s.step ⟨m, b⟩ base c = .running .start s' ∧ s'.depth = s.depth + 1 := by
  have apply_eq : ∀ (s : Machine) (mv : Move), s.apply ⟨m, a⟩ base mv = s.apply ⟨m, b⟩ base mv := by
    intro s mv
    cases mv <;> rfl
  have within : ∀ name rest t, s.step ⟨m, a⟩ base (.within name rest t) =
        s.step ⟨m, b⟩ base (.within name rest t) ∨
      s.Full a b ∧ (∃ s', s.step ⟨m, a⟩ base (.within name rest t) = .failed (.stackOverflow a.maxDepth) s') ∧
        ∃ s', s.step ⟨m, b⟩ base (.within name rest t) = .running .start s' ∧ s'.depth = s.depth + 1 := by
    intro name rest t
    cases hlimit : b.exceeded? (s.steps + 1) with
    | some limit =>
      rw [step_of_exceeded (x := ⟨m, a⟩) (hsteps.trans hlimit), step_of_exceeded (x := ⟨m, b⟩) hlimit]
      exact .inl rfl
    | none =>
      cases rest with
      | cons st rest =>
        rw [step_cons (x := ⟨m, a⟩) (hsteps.trans hlimit), step_cons (x := ⟨m, b⟩) hlimit]
        exact .inl rfl
      | nil =>
        rw [step_nil (x := ⟨m, a⟩) (hsteps.trans hlimit), step_nil (x := ⟨m, b⟩) hlimit]
        have hcounted : (s.counted name (.inr t.transfer)).WithinDepth a b := hdepth
        rcases move_same_or_cut (m := m) hcounted t.transfer with heq | ⟨hfull, ha, fr, args, hb⟩
        · rw [heq]
          left
          cases (s.counted name (.inr t.transfer)).move ⟨m, b⟩ t.transfer with
          | error e => rfl
          | ok mv => exact apply_eq _ mv
        · rw [ha, hb]
          exact .inr ⟨⟨hfull.lt, hfull.depth⟩, ⟨_, rfl⟩, _, rfl, rfl⟩
  cases c with
  | within name rest t => exact within name rest t
  | start =>
    have hblock : s.currentBlock ⟨m, a⟩ = s.currentBlock ⟨m, b⟩ := rfl
    cases hb : s.currentBlock ⟨m, b⟩ with
    | error e =>
      rw [step_start_of_error (hblock.trans hb), step_start_of_error hb]
      exact .inl rfl
    | ok k =>
      rw [step_start_of_ok (hblock.trans hb), step_start_of_ok hb]
      exact within k.1 _ _

end Settings

/-- Runs with two settings make the same steps from points with some property, except where the first one is
cut off. -/
structure Lockstep (x y : Setting) (base : Nat) (P Cut : Control → Machine → Prop) : Prop where
  step : ∀ c s, P c s → s.step x base c = s.step y base c ∨ Cut c s
  keeps : ∀ c s c' s', P c s → s.step x base c = .running c' s' → P c' s'

namespace Lockstep

variable {x y : Setting} {base : Nat} {P Cut : Control → Machine → Prop} {c : Control} {s : Machine}

/-- Two runs are the same, or go together to a point where the first one is cut off. -/
lemma run (h : Lockstep x y base P Cut) (hs : P c s) (fuel : Nat) :
    Machine.run x base fuel c s = Machine.run y base fuel c s ∨
      ∃ c₁ s₁, Reaches x base c s c₁ s₁ ∧ Reaches y base c s c₁ s₁ ∧ P c₁ s₁ ∧ s₁.steps < s.steps + fuel ∧
        Cut c₁ s₁ := by
  induction fuel generalizing c s with
  | zero => exact .inl rfl
  | succ fuel ih =>
    rcases h.step c s hs with heq | hcut
    · rw [run_succ, run_succ, heq]
      cases hstep : s.step y base c with
      | returned v s' => exact .inl rfl
      | failed e s' => exact .inl rfl
      | running c' s' =>
        have hx := heq.trans hstep
        have hsteps := steps_of_step_running hstep
        rcases ih (h.keeps c s c' s' hs hx) with hrun | ⟨c₁, s₁, hxr, hyr, hP, hlt, hcut⟩
        · exact .inl hrun
        · exact .inr ⟨c₁, s₁, hxr.head hx, hyr.head hstep, hP, by omega, hcut⟩
    · exact .inr ⟨c, s, .refl c s, .refl c s, hs, by omega, hcut⟩

lemma reaches (h : Lockstep x y base P Cut) (hs : P c s) {c' : Control} {s' : Machine}
    (hr : Reaches y base c s c' s') :
    (Reaches x base c s c' s' ∧ P c' s') ∨
      ∃ c₁ s₁, Reaches x base c s c₁ s₁ ∧ P c₁ s₁ ∧ s₁.steps < s'.steps ∧ Cut c₁ s₁ := by
  induction hr with
  | refl => exact .inl ⟨.refl c _, hs⟩
  | @tail c₁ c₂ s s₁ s₂ _ hstep ih =>
    have hsteps := steps_of_step_running hstep
    rcases ih hs with ⟨hx, hP⟩ | ⟨c₀, s₀, hx, hP, hlt, hcut⟩
    · rcases h.step c₁ s₁ hP with heq | hcut
      · have hstep' := heq.trans hstep
        exact .inl ⟨hx.tail hstep', h.keeps c₁ s₁ c₂ s₂ hP hstep'⟩
      · exact .inr ⟨c₁, s₁, hx, hP, by omega, hcut⟩
    · exact .inr ⟨c₀, s₀, hx, hP, by omega, hcut⟩

section Calls

variable {m : Module} {a b : Config} {f : FuncId} {args : List Value} {fr : Frame}

lemma callFor (h : Lockstep ⟨m, a⟩ ⟨m, b⟩ s.depth P Cut)
    (ha : s.beginCall.newFrame ⟨m, a⟩ f args none = .ok fr)
    (hb : s.beginCall.newFrame ⟨m, b⟩ f args none = .ok fr)
    (hP : P .start (s.beginCall.enter ⟨m, a⟩ fr args)) (fuel : Nat) :
    s.callFor ⟨m, a⟩ fuel f args = s.callFor ⟨m, b⟩ fuel f args ∨
      ∃ c₁ s₁, s.During ⟨m, a⟩ f args c₁ s₁ ∧ s.During ⟨m, b⟩ f args c₁ s₁ ∧ P c₁ s₁ ∧
        s₁.steps < s.beginCall.steps + fuel ∧ Cut c₁ s₁ := by
  rw [callFor_of_entered ha, callFor_of_entered hb]
  rcases h.run hP fuel with hrun | ⟨c₁, s₁, hreacha, hreachb, hP₁, hlt, hcut⟩
  · exact .inl (congrArg _ hrun)
  · exact .inr ⟨c₁, s₁, ⟨fr, ha, hreacha⟩, ⟨fr, hb, hreachb⟩, hP₁, hlt, hcut⟩

lemma during (h : Lockstep ⟨m, a⟩ ⟨m, b⟩ s.depth P Cut)
    (ha : s.beginCall.newFrame ⟨m, a⟩ f args none = .ok fr)
    (hP : P .start (s.beginCall.enter ⟨m, a⟩ fr args)) {c' : Control} {s' : Machine}
    (hb : s.beginCall.newFrame ⟨m, b⟩ f args none = .ok fr) (hr : s.During ⟨m, b⟩ f args c' s') :
    (s.During ⟨m, a⟩ f args c' s' ∧ P c' s') ∨
      ∃ c₁ s₁, s.During ⟨m, a⟩ f args c₁ s₁ ∧ P c₁ s₁ ∧ s₁.steps < s'.steps ∧ Cut c₁ s₁ := by
  obtain ⟨fr', hfr', hreach⟩ := hr
  obtain rfl : fr = fr' := Except.ok.inj (hb.symm.trans hfr')
  rcases h.reaches hP hreach with ⟨hreach', hP'⟩ | ⟨c₁, s₁, hreach₁, hP₁, hlt, hcut⟩
  · exact .inl ⟨⟨fr, ha, hreach'⟩, hP'⟩
  · exact .inr ⟨c₁, s₁, ⟨fr, ha, hreach₁⟩, hP₁, hlt, hcut⟩

end Calls

end Lockstep

end Machine

end BlockIR
