import BlockIR.Proofs.Machine.Simulation

/-!
# The machine refines activations

A run on the machine, with one value stack for all frames and no recursion, gives what activations give:
a run that ends for another reason than a limit has an activation behind it, and an activation that
respects the limits is carried out.
-/

namespace BlockIR

/-- The faults of a run that say that it was cut off. -/
def Fault.isLimit : Fault → Bool
  | stackOverflow _ | stepLimit _ => true
  | _ => false

def Outcome.isLimited : Outcome → Bool
  | returned _ => false
  | failed f => f.isLimit
  | unfinished => true

lemma Locals.Yields.depth_pos {m : Module} {b : Body} {l : Locals b} {pt : Point}
    {r : Except Fault Value} {n d : Nat} (h : l.Yields m pt r n d) : 0 < d := by
  induction h <;> omega

/-- A control is at a point of the activation in a frame. -/
inductive Control.At (fr : Frame) : Control → Point → Prop
  | start : At fr .start (.start fr.block)
  | within {name : BlockId} {rest : List Statement} {t : Terminator} :
    At fr (.within name rest t) (.within rest t.transfer)

namespace Config

/-- A run may take this many steps. -/
def Allows (c : Config) (steps : Nat) : Prop := ∀ limit ∈ c.stepLimit, steps ≤ limit

/-- The most steps of a run that is not cut off. -/
def budget (c : Config) : Nat := c.stepLimit.getD maxSteps

lemma exceeded?_eq_none_iff {c : Config} {steps : Nat} : c.exceeded? steps = none ↔ c.Allows steps := by
  simp only [exceeded?, Option.filter_eq_none_iff, decide_eq_true_eq, Nat.not_lt, Allows, Option.mem_def]

lemma Allows.mono {c : Config} {m n : Nat} (h : c.Allows n) (hmn : m ≤ n) : c.Allows m :=
  fun limit hl => Nat.le_trans hmn (h limit hl)

lemma allows_of_le_budget {c : Config} {n : Nat} (h : n ≤ c.budget) : c.Allows n := by
  intro limit hl
  rw [budget, Option.mem_def.1 hl] at h
  exact h

lemma le_fuel_of_le_budget {c : Config} {n : Nat} (h : n ≤ c.budget) : n ≤ c.fuel := by
  unfold budget at h
  unfold fuel
  cases hc : c.stepLimit with
  | none => simpa only [hc, Option.getD_none] using h
  | some limit =>
    rw [hc, Option.getD_some] at h
    exact Nat.le_succ_of_le h

lemma Allows.not_exceeded {c : Config} {m n : Nat} (h : c.Allows n) (hmn : m ≤ n) :
    c.exceeded? m = none := exceeded?_eq_none_iff.2 (h.mono hmn)

end Config

namespace Machine

/-- The machine after a step was counted and recorded. -/
def counted (name : BlockId) (code : Action ⊕ Transfer) (s : Machine) : Machine :=
  record (.executing name code) { s with steps := s.steps + 1 }

/-- Goes on after the innermost frame was taken off: in the frame under it, if that belongs to the run. -/
def handBack (base : Nat) (returnTo : Option (Nat × BlockId)) (v : Value) (s : Machine) : Progress :=
  match returnTo with
  | some (i, b) => if base < s.depth then .running .start ((s.writeSlot i v).jump b) else .returned v s
  | none => .returned v s

/-- What a run makes of the progress of a step. -/
def resume (x : Setting) (base fuel : Nat) : Progress → Outcome × Machine
  | .running c s => run x base fuel c s
  | .returned v s => (.returned v, s)
  | .failed f s => (.failed f, s)

lemma run_succ (x : Setting) (base fuel : Nat) (c : Control) (s : Machine) :
    run x base (fuel + 1) c s = resume x base fuel (s.step x base c) := by
  unfold run resume
  cases s.step x base c <;> rfl

section Steps

variable {x : Setting} {base : Nat} {s : Machine} {fr : Frame} {callers : List Frame} {below : List Value}
  {b : Body} {l l' : Locals b} {name : BlockId} {st : Statement} {rest : List Statement} {t : Terminator}

lemma Shows.counted (h : s.Shows fr callers below l) (name : BlockId) (code : Action ⊕ Transfer) :
    (s.counted name code).Shows fr callers below l := h.of_eq rfl rfl

lemma step_of_exceeded {limit : Nat} (h : x.config.exceeded? (s.steps + 1) = some limit) :
    s.step x base (.within name rest t) = .failed (.stepLimit limit) { s with steps := s.steps + 1 } := by
  unfold step execute
  simp only [h]

lemma step_cons (h : x.config.exceeded? (s.steps + 1) = none) :
    s.step x base (.within name (st :: rest) t) =
      match (s.counted name (.inl st.action)).write? st.action with
      | .error f => .failed f (s.counted name (.inl st.action))
      | .ok none => .running (.within name rest t) (s.counted name (.inl st.action))
      | .ok (some (i, v)) =>
        .running (.within name rest t) ((s.counted name (.inl st.action)).writeSlot i v) := by
  unfold step execute
  simp only [h]
  rfl

lemma step_nil (h : x.config.exceeded? (s.steps + 1) = none) :
    s.step x base (.within name [] t) =
      match (s.counted name (.inr t.transfer)).move x t.transfer with
      | .error f => .failed f (s.counted name (.inr t.transfer))
      | .ok m => (s.counted name (.inr t.transfer)).apply x base m := by
  unfold step execute
  simp only [h]
  rfl

lemma Shows.step_of_act_ok (hs : s.Shows fr callers below l) (base : Nat) (name : BlockId)
    (rest : List Statement) (t : Terminator) (h : x.config.exceeded? (s.steps + 1) = none)
    (ha : l.act st.action = .ok l') :
    ∃ s', s.step x base (.within name (st :: rest) t) = .running (.within name rest t) s' ∧
      s'.Shows fr callers below l' ∧ s'.steps = s.steps + 1 := by
  have hc := hs.counted name (.inl st.action)
  rw [step_cons h]
  rcases st with ⟨action, pos⟩
  cases action with
  | assign p r =>
    by_cases hp : b.declares p
    · simp only [Locals.act, l.require_eq_ok hp, bind, Except.bind, pure, Except.pure] at ha
      rcases hr : l.rvalue r with e | v
      · simp only [hr, reduceCtorEq] at ha
      · simp only [hr, Except.ok.injEq] at ha
        refine ⟨(s.counted name (.inl (.assign p r))).writeSlot (below.length + b.rank p) v, ?_, ?_, rfl⟩
        · simp only [write?, hc.slot_eq_ok hp, hc.rvalue_eq, hr, bind, Except.bind, pure, Except.pure]
        · exact ha ▸ hc.writeSlot hp v
    · simp only [Locals.act, l.require_eq_error hp, bind, Except.bind, reduceCtorEq] at ha
  | drop k p =>
    by_cases hp : b.declares p
    · simp only [Locals.act, l.require_eq_ok hp, bind, Except.bind, pure, Except.pure,
        Except.ok.injEq] at ha
      refine ⟨s.counted name (.inl (.drop k p)), ?_, ha ▸ hc, rfl⟩
      simp only [write?, hc.slot_eq_ok hp, Functor.discard, Functor.mapConst, Except.map, bind,
        Except.bind, pure, Except.pure, Function.comp]
    · simp only [Locals.act, l.require_eq_error hp, bind, Except.bind, reduceCtorEq] at ha

lemma Shows.step_of_act_error (hs : s.Shows fr callers below l) (base : Nat) (name : BlockId)
    (rest : List Statement) (t : Terminator) (h : x.config.exceeded? (s.steps + 1) = none) {e : Fault}
    (ha : l.act st.action = .error e) :
    ∃ s', s.step x base (.within name (st :: rest) t) = .failed e s' := by
  have hc := hs.counted name (.inl st.action)
  refine ⟨s.counted name (.inl st.action), ?_⟩
  rw [step_cons h]
  rcases st with ⟨action, pos⟩
  cases action with
  | assign p r =>
    by_cases hp : b.declares p
    · simp only [Locals.act, l.require_eq_ok hp, bind, Except.bind, pure, Except.pure] at ha
      rcases hr : l.rvalue r with e' | v
      · simp only [hr, Except.error.injEq] at ha
        simp only [write?, hc.slot_eq_ok hp, hc.rvalue_eq, hr, bind, Except.bind, ha]
      · simp only [hr, reduceCtorEq] at ha
    · simp only [Locals.act, l.require_eq_error hp, bind, Except.bind, Except.error.injEq] at ha
      simp only [write?, hc.slot_eq_error hp, bind, Except.bind, ha]
  | drop k p =>
    by_cases hp : b.declares p
    · simp only [Locals.act, l.require_eq_ok hp, bind, Except.bind, pure, Except.pure, reduceCtorEq] at ha
    · simp only [Locals.act, l.require_eq_error hp, bind, Except.bind, Except.error.injEq] at ha
      simp only [write?, hc.slot_eq_error hp, Functor.discard, Functor.mapConst, Except.map, bind,
        Except.bind, ha, Function.comp]

lemma Shows.move_of_goOn? (hs : s.Shows fr callers below l) {tr : Transfer} {r : Except Fault BlockId}
    (h : l.goOn? tr = some r) : s.move x tr = r.map .jump := by
  cases tr with
  | ret => cases h
  | call => cases h
  | goto target =>
    obtain rfl := Option.some.inj h
    rfl
  | branch c t e =>
    obtain rfl := Option.some.inj h
    simp only [move, hs.branchTarget_eq]
    cases l.branch c t e <;> rfl
  | switch p cases targets =>
    obtain rfl := Option.some.inj h
    simp only [move, hs.switchTarget_eq]
    cases l.read p >>= fun v => Locals.select v cases targets <;> rfl
  | diverge =>
    obtain rfl := Option.some.inj h
    rfl
  | panic =>
    obtain rfl := Option.some.inj h
    rfl

lemma newFrame_of_admit_error {g : FuncId} {vs : List Value} {e : Fault}
    (h : x.module.admit g vs = .error e) (s : Machine) (returnTo : Option (Nat × BlockId)) :
    s.newFrame x g vs returnTo = .error e := by
  unfold Module.admit at h
  unfold newFrame
  cases hg : x.module.get? g with
  | none =>
    simp only [hg, Except.error.injEq] at h ⊢
    exact h
  | some function =>
    simp only [hg] at h
    split_ifs at h with hc
    simp only [ne_eq, hc, not_false_eq_true, if_true, ← Except.error.inj h]

lemma newFrame_of_admit_ok {g : FuncId} {vs : List Value} {function : Function}
    (h : x.module.admit g vs = .ok function) (s : Machine) (returnTo : Option (Nat × BlockId)) :
    x.module.get? g = some function ∧ vs.length = function.body.args.toNat ∧
      s.newFrame x g vs returnTo =
        if x.config.maxDepth ≤ s.depth then .error (.stackOverflow x.config.maxDepth)
        else .ok (.ofBody g function.body s.values.size returnTo) := by
  unfold Module.admit at h
  unfold newFrame
  cases hg : x.module.get? g with
  | none => simp only [hg, reduceCtorEq] at h
  | some found =>
    simp only [hg] at h
    split_ifs at h with hc
    obtain rfl := Except.ok.inj h
    refine ⟨rfl, hc, ?_⟩
    simp only [ne_eq, hc, not_true_eq_false, if_false]

lemma Shows.callMove_eq (hs : s.Shows fr callers below l) (p : Place) (f : Operand)
    (args : List Operand) (target : BlockId) :
    s.callMove x p f args target = (do
      let (g, vs) ← l.callee p f args
      return .enter (← s.newFrame x g vs (some (below.length + b.rank p, target))) vs) := by
  have hop : s.operand = l.operand := funext hs.operand_eq
  unfold callMove Locals.callee
  by_cases hp : b.declares p
  · simp only [hs.slot_eq_ok hp, l.require_eq_ok hp, hop, bind, Except.bind, pure, Except.pure]
    rcases l.operand f with e | v
    · rfl
    · cases v with
      | func g => rcases args.mapM l.operand with e | vs <;> rfl
      | uninit => rfl
      | bool v => rfl
      | int n => rfl
  · simp only [hs.slot_eq_error hp, l.require_eq_error hp, bind, Except.bind]

lemma Shows.return_eq (hs : s.Shows fr callers below l) (x : Setting) (base : Nat) (v : Value) :
    s.return_ x base v = (s.leave x fr).handBack base fr.returnTo v ∧
      (s.leave x fr).calls.frames = callers ∧ (s.leave x fr).values.toList = below := by
  refine ⟨?_, ?_, ?_⟩
  · simp only [return_, hs.top?]
    rfl
  · rw [leave_calls, CallStack.frames_pop, hs.frames, List.tail_cons]
  · rw [leave_values, Array.toList_shrink, hs.offset, hs.under]

lemma Shows.step_of_goOn_ok (hs : s.Shows fr callers below l) (base : Nat) (name : BlockId)
    (h : x.config.exceeded? (s.steps + 1) = none) {id : BlockId}
    (hg : l.goOn? t.transfer = some (.ok id)) :
    ∃ s', s.step x base (.within name [] t) = .running .start s' ∧
      s'.Shows { fr with block := id } callers below l ∧ s'.steps = s.steps + 1 := by
  have hc := hs.counted name (.inr t.transfer)
  refine ⟨(s.counted name (.inr t.transfer)).jump id, ?_, hc.jump id, rfl⟩
  simp only [step_nil h, hc.move_of_goOn? hg, Except.map, apply]

lemma Shows.step_of_goOn_error (hs : s.Shows fr callers below l) (base : Nat) (name : BlockId)
    (h : x.config.exceeded? (s.steps + 1) = none) {e : Fault}
    (hg : l.goOn? t.transfer = some (.error e)) :
    ∃ s', s.step x base (.within name [] t) = .failed e s' := by
  have hc := hs.counted name (.inr t.transfer)
  refine ⟨s.counted name (.inr t.transfer), ?_⟩
  simp only [step_nil h, hc.move_of_goOn? hg, Except.map]

lemma Shows.step_of_ret (hs : s.Shows fr callers below l) (base : Nat) (name : BlockId)
    (h : x.config.exceeded? (s.steps + 1) = none) (ht : t.transfer = .ret) {v : Value}
    (hv : l.read .result = .ok v) :
    ∃ s' : Machine, s.step x base (.within name [] t) = s'.handBack base fr.returnTo v ∧
      s'.calls.frames = callers ∧ s'.values.toList = below ∧ s'.steps = s.steps + 1 := by
  have hc := hs.counted name (.inr t.transfer)
  obtain ⟨hreturn, hframes, hvalues⟩ := hc.return_eq x base v
  refine ⟨(s.counted name (.inr t.transfer)).leave x fr, ?_, hframes, hvalues, rfl⟩
  have hmove : (s.counted name (.inr t.transfer)).move x .ret = .ok (.leave v) := by
    simp only [move, hc.readPlace_eq, hv, bind, Except.bind, pure, Except.pure]
  rw [← ht] at hmove
  rw [← hreturn]
  simp only [step_nil h, hmove, apply]

section Callees

variable {p : Place} {f : Operand} {args : List Operand} {target : BlockId} {g : FuncId} {vs : List Value}
  {function : Function}

lemma Shows.step_of_call (hs : s.Shows fr callers below l) (base : Nat) (name : BlockId)
    (h : x.config.exceeded? (s.steps + 1) = none) (ht : t.transfer = .call p f args target) :
    s.step x base (.within name [] t) =
      match (do
        let (g, vs) ← l.callee p f args
        return Move.enter (← (s.counted name (.inr t.transfer)).newFrame x g vs
          (some (below.length + b.rank p, target))) vs) with
      | .error e => .failed e (s.counted name (.inr t.transfer))
      | .ok m => (s.counted name (.inr t.transfer)).apply x base m := by
  rw [← (hs.counted name (.inr t.transfer)).callMove_eq]
  simp only [step_nil h]
  simp only [ht, move]

lemma Shows.step_of_callee_error (hs : s.Shows fr callers below l) (base : Nat) (name : BlockId)
    (h : x.config.exceeded? (s.steps + 1) = none) (ht : t.transfer = .call p f args target)
    {e : Fault} (he : l.callee p f args = .error e) :
    ∃ s', s.step x base (.within name [] t) = .failed e s' := by
  have hstep := hs.step_of_call base name h ht
  simp only [he, bind, Except.bind] at hstep
  exact ⟨_, hstep⟩

lemma Shows.step_of_admit_error (hs : s.Shows fr callers below l) (base : Nat) (name : BlockId)
    (h : x.config.exceeded? (s.steps + 1) = none) (ht : t.transfer = .call p f args target)
    (hv : l.callee p f args = .ok (g, vs)) {e : Fault} (he : x.module.admit g vs = .error e) :
    ∃ s', s.step x base (.within name [] t) = .failed e s' := by
  have hstep := hs.step_of_call base name h ht
  simp only [hv, newFrame_of_admit_error he, bind, Except.bind] at hstep
  exact ⟨_, hstep⟩

lemma Shows.step_of_full (hs : s.Shows fr callers below l) (base : Nat) (name : BlockId)
    (h : x.config.exceeded? (s.steps + 1) = none) (ht : t.transfer = .call p f args target)
    (hv : l.callee p f args = .ok (g, vs)) (hf : x.module.admit g vs = .ok function)
    (hfull : x.config.maxDepth ≤ callers.length + 1) :
    ∃ s', s.step x base (.within name [] t) = .failed (.stackOverflow x.config.maxDepth) s' := by
  have hstep := hs.step_of_call base name h ht
  have hnew := (newFrame_of_admit_ok hf (s.counted name (.inr t.transfer))
    (some (below.length + b.rank p, target))).2.2
  rw [(hs.counted name (.inr t.transfer)).depth_eq, if_pos hfull] at hnew
  simp only [hv, hnew, bind, Except.bind] at hstep
  exact ⟨_, hstep⟩

lemma Shows.step_of_admit_ok (hs : s.Shows fr callers below l) (base : Nat) (name : BlockId)
    (h : x.config.exceeded? (s.steps + 1) = none) (ht : t.transfer = .call p f args target)
    (hv : l.callee p f args = .ok (g, vs)) (hf : x.module.admit g vs = .ok function)
    (hroom : callers.length + 1 < x.config.maxDepth) :
    ∃ s', s.step x base (.within name [] t) = .running .start s' ∧
      s'.Shows (.ofBody g function.body s.values.size (some (below.length + b.rank p, target)))
        (fr :: callers) s.values.toList (Locals.initial function.body vs) ∧
      s'.steps = s.steps + 1 := by
  have hc := hs.counted name (.inr t.transfer)
  have hstep := hs.step_of_call base name h ht
  obtain ⟨-, hlen, hnew⟩ := newFrame_of_admit_ok hf (s.counted name (.inr t.transfer))
    (some (below.length + b.rank p, target))
  rw [hc.depth_eq, if_neg (Nat.not_le_of_lt hroom)] at hnew
  simp only [hv, hnew, bind, Except.bind, pure, Except.pure, apply] at hstep
  have henter := shows_enter x (s.counted name (.inr t.transfer)) g
    (some (below.length + b.rank p, target)) hlen
  rw [hc.frames] at henter
  exact ⟨_, hstep, henter, rfl⟩

end Callees

lemma Shows.handBack_eq (hs : s.Shows fr callers below l) {s' : Machine}
    (hf : s'.calls.frames = fr :: callers) (hv : s'.values.toList = s.values.toList) {p : Place}
    (hp : b.declares p) (hbase : base ≤ callers.length) (target : BlockId) (v : Value) :
    ∃ s'', s'.handBack base (some (below.length + b.rank p, target)) v = .running .start s'' ∧
      s''.Shows { fr with block := target } callers below (l.set p v) ∧ s''.steps = s'.steps := by
  have hs' : s'.Shows fr callers below l :=
    hs.of_eq (hf.trans hs.frames.symm) (Array.toList_inj.1 hv)
  have hdepth : base < s'.depth := by
    rw [hs'.depth_eq]
    omega
  exact ⟨_, if_pos hdepth, (hs'.writeSlot hp v).jump target, rfl⟩

end Steps

/-- A run carries out the rest of an activation, in `n` steps. If that gives a value, the run goes on as
after a return to `callers`, with `below` as the value stack. -/
def Ends (x : Setting) (base fuel : Nat) (c : Control) (s : Machine) (callers : List Frame)
    (below : List Value) (returnTo : Option (Nat × BlockId)) (n : Nat) : Except Fault Value → Prop
  | .error e => ∃ s', run x base fuel c s = (.failed e, s')
  | .ok v => ∃ s' : Machine, s'.calls.frames = callers ∧ s'.values.toList = below ∧ s'.steps = s.steps + n ∧
      run x base fuel c s = resume x base (fuel - n) (s'.handBack base returnTo v)

section Runs

variable {x : Setting} {base : Nat} {callers : List Frame} {below : List Value}
  {returnTo : Option (Nat × BlockId)}

lemma Ends.of_run_eq {s s' : Machine} {c c' : Control} {fuel k n : Nat} {r : Except Fault Value}
    (h : s'.Ends x base (fuel - k) c' callers below returnTo n r)
    (hrun : run x base fuel c s = run x base (fuel - k) c' s') (hsteps : s'.steps = s.steps + k) :
    s.Ends x base fuel c callers below returnTo (n + k) r := by
  cases r with
  | error e =>
    obtain ⟨s'', h⟩ := h
    exact ⟨s'', hrun.trans h⟩
  | ok v =>
    obtain ⟨s'', hf, hv, hn, h⟩ := h
    refine ⟨s'', hf, hv, by omega, ?_⟩
    rw [hrun, h, Nat.sub_sub, Nat.add_comm k n]

lemma Ends.step {s s' : Machine} {c c' : Control} {fuel n : Nat} {r : Except Fault Value}
    (h : s'.Ends x base fuel c' callers below returnTo n r)
    (hstep : s.step x base c = .running c' s') (hsteps : s'.steps = s.steps + 1) :
    s.Ends x base (fuel + 1) c callers below returnTo (n + 1) r := by
  refine Ends.of_run_eq (k := 1) h ?_ hsteps
  rw [run_succ, hstep]
  rfl

lemma ends_of_step_failed {s s' : Machine} {c : Control} {fuel n : Nat} {e : Fault}
    (hstep : s.step x base c = .failed e s') :
    s.Ends x base (fuel + 1) c callers below returnTo n (.error e) := by
  refine ⟨s', ?_⟩
  rw [run_succ, hstep]
  rfl

lemma run_start {s : Machine} {name : BlockId} {k : Block} (h : s.currentBlock x = .ok (name, k))
    (fuel : Nat) :
    run x base fuel .start s = run x base fuel (.within name k.statements k.terminator) s := by
  cases fuel with
  | zero => rfl
  | succ fuel =>
    rw [run_succ, run_succ]
    unfold step
    simp only [h]

lemma currentBlock_eq {s : Machine} {fr : Frame} {g : Function} (ht : s.calls.top? = some fr)
    (hg : x.module.get? fr.func = some g) :
    s.currentBlock x =
      match g.body.blocks.get? fr.block with
      | none => .error (.unknownBlock fr.block.text)
      | some k => .ok (fr.block, k) := by
  unfold currentBlock
  cases hk : g.body.blocks.get? fr.block with
  | none => simp only [ht, hg, hk]
  | some k => simp only [ht, hg, hk]

/-- A run whose step begins an activation of a callee, which returns, goes on in the caller: at the target of the
call, with the value that came back in the destination. -/
lemma Shows.run_of_callee_returns {b : Body} {l : Locals b} {s s₁ : Machine} {fr : Frame} {c : Control}
    {fuel n : Nat} {p : Place} {target : BlockId} {v : Value} (hs : s.Shows fr callers below l)
    (hp : b.declares p) (hbase : base ≤ callers.length) (hstep : s.step x base c = .running .start s₁)
    (hsteps₁ : s₁.steps = s.steps + 1)
    (hcallee : s₁.Ends x base fuel .start (fr :: callers) s.values.toList
      (some (below.length + b.rank p, target)) n (.ok v)) :
    ∃ s', run x base (fuel + 1) c s = run x base (fuel + 1 - (n + 1)) .start s' ∧
      s'.Shows { fr with block := target } callers below (l.set p v) ∧ s'.steps = s.steps + (n + 1) := by
  obtain ⟨s₂, hf₂, hv₂, hsteps₂, hrun₂⟩ := hcallee
  obtain ⟨s₃, hback, hs₃, hsteps₃⟩ := hs.handBack_eq hf₂ hv₂ hp hbase target v
  refine ⟨s₃, ?_, hs₃, by omega⟩
  rw [run_succ, hstep, show fuel + 1 - (n + 1) = fuel - n by omega]
  simp only [resume]
  rw [hrun₂, hback]
  rfl

/-- An activation that respects the limits is carried out by any run that has the steps for it. -/
theorem ends_of_yields {b : Body} {l : Locals b} {pt : Point} {r : Except Fault Value} {n d : Nat}
    (h : l.Yields x.module pt r n d) {s : Machine} {fr : Frame} {c : Control} {fuel : Nat} {g : Function}
    (hg : x.module.get? fr.func = some g) (hb : g.body = b) (hs : s.Shows fr callers below l)
    (hc : c.At fr pt) (hbase : base ≤ callers.length) (hd : callers.length + d ≤ x.config.maxDepth)
    (hn : n ≤ fuel) (ha : x.config.Allows (s.steps + n)) :
    s.Ends x base fuel c callers below fr.returnTo n r := by
  induction h generalizing s fr c fuel g callers below base with
  | @missing b l id hk =>
    cases hc
    obtain ⟨fuel, rfl⟩ : ∃ k, fuel = k + 1 := ⟨fuel - 1, by omega⟩
    have hstep : s.step x base .start = .failed (.unknownBlock fr.block.text) s := by
      simp only [step, currentBlock_eq hs.top? hg, hb, hk]
    exact ends_of_step_failed hstep
  | @block b l id k r n d hk _ ih =>
    cases hc
    have hcur : s.currentBlock x = .ok (fr.block, k) := by
      simp only [currentBlock_eq hs.top? hg, hb, hk]
    exact (ih hg hb hs .within hbase hd hn ha).of_run_eq (k := 0) (run_start hcur fuel) rfl
  | @statement b l l' st rest t r n d hact _ ih =>
    cases hc with
    | @within name _ term =>
    obtain ⟨fuel, rfl⟩ : ∃ k, fuel = k + 1 := ⟨fuel - 1, by omega⟩
    obtain ⟨s', hstep, hs', hsteps⟩ := hs.step_of_act_ok base name rest term
      (ha.not_exceeded (by omega)) hact
    refine Ends.step (ih hg hb hs' .within hbase hd (by omega) ?_) hstep hsteps
    rw [hsteps]
    exact ha.mono (by omega)
  | @badStatement b l st rest t e hact =>
    cases hc with
    | @within name _ term =>
    obtain ⟨fuel, rfl⟩ : ∃ k, fuel = k + 1 := ⟨fuel - 1, by omega⟩
    obtain ⟨s', hstep⟩ := hs.step_of_act_error base name rest term
      (ha.not_exceeded (by omega)) hact
    exact ends_of_step_failed hstep
  | @ret b l v hv =>
    generalize ht : Transfer.ret = tr at hc
    cases hc with
    | @within name _ term =>
    obtain ⟨fuel, rfl⟩ : ∃ k, fuel = k + 1 := ⟨fuel - 1, by omega⟩
    obtain ⟨s', hstep, hf, hv', hsteps⟩ := hs.step_of_ret base name
      (ha.not_exceeded (by omega)) ht.symm hv
    refine ⟨s', hf, hv', hsteps, ?_⟩
    rw [run_succ, hstep]
    rfl
  | @goOn b l t id r n d hgo _ ih =>
    cases hc with
    | @within name _ term =>
    obtain ⟨fuel, rfl⟩ : ∃ k, fuel = k + 1 := ⟨fuel - 1, by omega⟩
    obtain ⟨s', hstep, hs', hsteps⟩ := hs.step_of_goOn_ok base name
      (ha.not_exceeded (by omega)) hgo
    have hg' : x.module.get? { fr with block := id }.func = some g := hg
    have hfuel : n ≤ fuel := by omega
    have hrest := ih hg' hb hs' .start hbase hd hfuel (by rw [hsteps]; exact ha.mono (by omega))
    exact hrest.step hstep hsteps
  | @stuck b l t e hgo =>
    cases hc with
    | @within name _ term =>
    obtain ⟨fuel, rfl⟩ : ∃ k, fuel = k + 1 := ⟨fuel - 1, by omega⟩
    obtain ⟨s', hstep⟩ := hs.step_of_goOn_error base name
      (ha.not_exceeded (by omega)) hgo
    exact ends_of_step_failed hstep
  | @call b l p f args target cg vs function v r n d n' d' hv hadmit hcallee _ ih ih' =>
    have hpos := hcallee.depth_pos
    generalize ht : Transfer.call p f args target = tr at hc
    cases hc with
    | @within name _ term =>
    obtain ⟨fuel, rfl⟩ : ∃ k, fuel = k + 1 := ⟨fuel - 1, by omega⟩
    obtain ⟨s₁, hstep, hs₁, hsteps₁⟩ := hs.step_of_admit_ok base name (ha.not_exceeded (by omega))
      ht.symm hv hadmit (by omega)
    have hdeeper : base ≤ (fr :: callers).length := Nat.le_succ_of_le hbase
    have hfuel : n ≤ fuel := by omega
    have hends₁ := ih (newFrame_of_admit_ok hadmit s none).1 rfl hs₁ .start hdeeper
      (by rw [List.length_cons]; omega) hfuel (by rw [hsteps₁]; exact ha.mono (by omega))
    obtain ⟨s', hrun, hs', hsteps⟩ :=
      hs.run_of_callee_returns (l.declares_of_callee hv) hbase hstep hsteps₁ hends₁
    have hg' : x.module.get? { fr with block := target }.func = some g := hg
    have hfuel' : n' ≤ fuel + 1 - (n + 1) := by omega
    have hrest := ih' hg' hb hs' .start hbase (by omega) hfuel' (by rw [hsteps]; exact ha.mono (by omega))
    have hends := hrest.of_run_eq hrun hsteps
    rwa [show n' + (n + 1) = n + n' + 1 by omega] at hends
  | @failedCall b l p f args target cg vs function e n d hv hadmit hcallee ih =>
    have hpos := hcallee.depth_pos
    generalize ht : Transfer.call p f args target = tr at hc
    cases hc with
    | @within name _ term =>
    obtain ⟨fuel, rfl⟩ : ∃ k, fuel = k + 1 := ⟨fuel - 1, by omega⟩
    obtain ⟨s₁, hstep, hs₁, hsteps₁⟩ := hs.step_of_admit_ok base name (ha.not_exceeded (by omega))
      ht.symm hv hadmit (by omega)
    have hdeeper : base ≤ (fr :: callers).length := Nat.le_succ_of_le hbase
    have hfuel : n ≤ fuel := by omega
    have hends := ih (newFrame_of_admit_ok hadmit s none).1 rfl hs₁ .start hdeeper
      (by rw [List.length_cons]; omega) hfuel (by rw [hsteps₁]; exact ha.mono (by omega))
    exact hends.step hstep hsteps₁
  | @refusedCall b l p f args target cg vs e hv hadmit =>
    generalize ht : Transfer.call p f args target = tr at hc
    cases hc with
    | @within name _ term =>
    obtain ⟨fuel, rfl⟩ : ∃ k, fuel = k + 1 := ⟨fuel - 1, by omega⟩
    obtain ⟨s', hstep⟩ := hs.step_of_admit_error base name
      (ha.not_exceeded (by omega)) ht.symm hv hadmit
    exact ends_of_step_failed hstep
  | @badCall b l p f args target e hv =>
    generalize ht : Transfer.call p f args target = tr at hc
    cases hc with
    | @within name _ term =>
    obtain ⟨fuel, rfl⟩ : ∃ k, fuel = k + 1 := ⟨fuel - 1, by omega⟩
    obtain ⟨s', hstep⟩ := hs.step_of_callee_error base name
      (ha.not_exceeded (by omega)) ht.symm hv
    exact ends_of_step_failed hstep

/-- Runs of this many steps that begin at this point of an activation end at a limit, or carry out what
the activation yields. -/
def Explained (x : Setting) (fuel : Nat) (pt : Point) : Prop :=
  ∀ ⦃b : Body⦄ ⦃l : Locals b⦄ ⦃s : Machine⦄ ⦃fr : Frame⦄ ⦃callers : List Frame⦄ ⦃below : List Value⦄
    ⦃c : Control⦄ ⦃base : Nat⦄ ⦃g : Function⦄,
    x.module.get? fr.func = some g → g.body = b → s.Shows fr callers below l → c.At fr pt →
    base ≤ callers.length → (run x base fuel c s).1.isLimited ∨
      ∃ r n d, l.Yields x.module pt r n d ∧ s.Ends x base fuel c callers below fr.returnTo n r

lemma limited_of_step_running {s s' : Machine} {c c' : Control} {fuel : Nat}
    (hstep : s.step x base c = .running c' s') (h : (run x base fuel c' s').1.isLimited) :
    (run x base (fuel + 1) c s).1.isLimited := by
  rw [run_succ, hstep]
  exact h

lemma limited_of_step_failed {s s' : Machine} {c : Control} {fuel : Nat} {e : Fault}
    (hstep : s.step x base c = .failed e s') (h : e.isLimit) :
    (run x base (fuel + 1) c s).1.isLimited := by
  rw [run_succ, hstep]
  exact h

lemma explained_statement {fuel : Nat} {st : Statement} {rest : List Statement} {t : Transfer}
    (ih : Explained x fuel (.within rest t)) : Explained x (fuel + 1) (.within (st :: rest) t) := by
  intro b l s fr callers below c base g hg hb hs hc hbase
  cases hc with
  | @within name _ term =>
  rcases hlim : x.config.exceeded? (s.steps + 1) with _ | limit
  · rcases hact : l.act st.action with e | l'
    · obtain ⟨s', hstep⟩ := hs.step_of_act_error base name rest term hlim hact
      exact .inr ⟨_, _, _, .badStatement hact, ends_of_step_failed hstep⟩
    · obtain ⟨s', hstep, hs', hsteps⟩ := hs.step_of_act_ok base name rest term hlim hact
      rcases ih hg hb hs' .within hbase with hl | ⟨r, n, d, hy, he⟩
      · exact .inl (limited_of_step_running hstep hl)
      · exact .inr ⟨_, _, _, .statement hact hy, he.step hstep hsteps⟩
  · exact .inl (limited_of_step_failed (step_of_exceeded hlim) rfl)

lemma explained_call {fuel : Nat} {p : Place} {f : Operand} {args : List Operand} {target : BlockId}
    (ih : ∀ k ≤ fuel, ∀ pt, Explained x k pt) :
    Explained x (fuel + 1) (.within [] (.call p f args target)) := by
  intro b l s fr callers below c base g hg hb hs hc hbase
  generalize ht : Transfer.call p f args target = tr at hc
  cases hc with
  | @within name _ term =>
  rcases hlim : x.config.exceeded? (s.steps + 1) with _ | limit
  · rw [← ht]
    rcases hv : l.callee p f args with e | ⟨cg, vs⟩
    · obtain ⟨s', hstep⟩ := hs.step_of_callee_error base name hlim ht.symm hv
      exact .inr ⟨_, _, _, .badCall hv, ends_of_step_failed hstep⟩
    · rcases hadmit : x.module.admit cg vs with e | function
      · obtain ⟨s', hstep⟩ := hs.step_of_admit_error base name hlim ht.symm hv hadmit
        exact .inr ⟨_, _, _, .refusedCall hv hadmit, ends_of_step_failed hstep⟩
      · rcases Nat.lt_or_ge (callers.length + 1) x.config.maxDepth with hroom | hfull
        · obtain ⟨s₁, hstep, hs₁, hsteps₁⟩ := hs.step_of_admit_ok base name hlim ht.symm hv hadmit hroom
          rcases ih fuel (Nat.le_refl fuel) (.start .entry) (newFrame_of_admit_ok hadmit s none).1 rfl
            hs₁ .start (Nat.le_succ_of_le hbase) with hl | ⟨r, n, d, hy, he⟩
          · exact .inl (limited_of_step_running hstep hl)
          · cases r with
            | error e => exact .inr ⟨_, _, _, .failedCall hv hadmit hy, he.step hstep hsteps₁⟩
            | ok v =>
              obtain ⟨s', hrun, hs', hsteps⟩ :=
                hs.run_of_callee_returns (l.declares_of_callee hv) hbase hstep hsteps₁ he
              have hg' : x.module.get? { fr with block := target }.func = some g := hg
              rcases ih (fuel + 1 - (n + 1)) (by omega) (.start target) hg' hb hs' .start hbase with
                hl | ⟨r', n', d', hy', he'⟩
              · exact .inl (hrun ▸ hl)
              · have hends := he'.of_run_eq hrun hsteps
                rw [show n' + (n + 1) = n + n' + 1 by omega] at hends
                exact .inr ⟨_, _, _, .call hv hadmit hy hy', hends⟩
        · obtain ⟨s', hstep⟩ := hs.step_of_full base name hlim ht.symm hv hadmit hfull
          exact .inl (limited_of_step_failed hstep rfl)
  · exact .inl (limited_of_step_failed (step_of_exceeded hlim) rfl)

lemma explained_terminator {fuel : Nat} {t : Transfer} (ih : ∀ k ≤ fuel, ∀ pt, Explained x k pt) :
    Explained x (fuel + 1) (.within [] t) := by
  by_cases hcall : ∃ p f args target, t = .call p f args target
  · obtain ⟨p, f, args, target, rfl⟩ := hcall
    exact explained_call ih
  intro b l s fr callers below c base g hg hb hs hc hbase
  generalize ht : t = tr at hc
  cases hc with
  | @within name _ term =>
  rcases hlim : x.config.exceeded? (s.steps + 1) with _ | limit
  · rcases hgo : l.goOn? term.transfer with _ | e | id
    · have hret : term.transfer = .ret := by
        rw [← ht] at hgo ⊢
        cases t with
        | ret => rfl
        | call p f args target => exact (hcall ⟨p, f, args, target, rfl⟩).elim
        | goto => cases hgo
        | branch => cases hgo
        | switch => cases hgo
        | diverge => cases hgo
        | panic => cases hgo
      obtain ⟨s', hstep, hf, hv, hsteps⟩ := hs.step_of_ret base name hlim hret
        (l.read_eq_ok rfl)
      rw [hret] at ht ⊢
      refine .inr ⟨_, _, _, .ret (l.read_eq_ok rfl), s', hf, hv, hsteps, ?_⟩
      rw [run_succ, hstep]
      rfl
    · obtain ⟨s', hstep⟩ := hs.step_of_goOn_error base name hlim hgo
      exact .inr ⟨_, _, _, .stuck (ht ▸ hgo), ends_of_step_failed hstep⟩
    · obtain ⟨s', hstep, hs', hsteps⟩ := hs.step_of_goOn_ok base name hlim hgo
      have hg' : x.module.get? { fr with block := id }.func = some g := hg
      rcases ih fuel (Nat.le_refl fuel) (.start id) hg' hb hs' .start hbase with hl | ⟨r, n, d, hy, he⟩
      · exact .inl (limited_of_step_running hstep hl)
      · exact .inr ⟨_, _, _, .goOn (ht ▸ hgo) hy, he.step hstep hsteps⟩
  · exact .inl (limited_of_step_failed (step_of_exceeded hlim) rfl)

/-- A run that begins at any point of an activation ends at a limit, or carries out what the activation
yields. The induction is on the number of steps, so that it covers the rest of a caller, which begins
after an unknown number of steps of the callee. -/
theorem explained (x : Setting) (fuel : Nat) (pt : Point) : Explained x fuel pt := by
  induction fuel using Nat.strongRecOn generalizing pt with
  | _ fuel ih =>
    have within : ∀ rest t, Explained x fuel (.within rest t) := by
      intro rest t
      cases fuel with
      | zero =>
        intro b l s fr callers below c base g _ _ _ _ _
        exact .inl rfl
      | succ fuel =>
        have ih' : ∀ k ≤ fuel, ∀ pt, Explained x k pt := fun k hk pt => ih k (Nat.lt_succ_of_le hk) pt
        cases rest with
        | nil => exact explained_terminator ih'
        | cons st rest => exact explained_statement (ih' fuel (Nat.le_refl fuel) _)
    cases pt with
    | within rest t => exact within rest t
    | start id =>
      intro b l s fr callers below c base g hg hb hs hc hbase
      cases hc
      have hcur := currentBlock_eq hs.top? hg
      rcases hk : b.blocks.get? fr.block with _ | k
      · rw [hb, hk] at hcur
        cases fuel with
        | zero => exact .inl rfl
        | succ fuel =>
          have hstep : s.step x base .start = .failed (.unknownBlock fr.block.text) s := by
            simp only [step, hcur]
          exact .inr ⟨_, _, _, .missing hk, ends_of_step_failed hstep⟩
      · rw [hb, hk] at hcur
        rcases within _ _ hg hb hs .within hbase with hl | ⟨r, n, d, hy, he⟩
        · left
          rw [run_start hcur]
          exact hl
        · exact .inr ⟨_, _, _, .block hk hy, he.of_run_eq (k := 0) (run_start hcur fuel) rfl⟩

end Runs

/-- What a call makes of the end of a run. -/
def resultOf : Outcome → Except Fault Value
  | .returned v => .ok v
  | .failed e => .error e
  | .unfinished => .error (.stepLimit Config.maxSteps)

/-- A result that says that the run was cut off. -/
def hitsLimit : Except Fault Value → Bool
  | .ok _ => false
  | .error e => e.isLimit

lemma hitsLimit_resultOf (o : Outcome) : hitsLimit (resultOf o) = o.isLimited := by
  cases o <;> rfl

section Calls

variable {x : Setting} {f : FuncId} {args : List Value}

lemma call_eq_resultOf (x : Setting) (f : FuncId) (args : List Value) (s : Machine) :
    (s.call x f args).1 = resultOf (s.callFor x x.config.fuel f args).1 := by
  unfold call
  split <;> simp only [*, resultOf]

lemma call_of_admit_error {e : Fault} (h : x.module.admit f args = .error e) (s : Machine) :
    (s.call x f args).1 = .error e := by
  rw [call_eq_resultOf]
  unfold callFor
  simp only [newFrame_of_admit_error h, resultOf]

lemma call_of_full {function : Function} (h : x.module.admit f args = .ok function) {s : Machine}
    (hd : x.config.maxDepth ≤ s.depth) :
    (s.call x f args).1 = .error (.stackOverflow x.config.maxDepth) := by
  have hdepth : s.beginCall.depth = s.depth := by
    simp only [depth, beginCall_calls]
  have hnew := (newFrame_of_admit_ok h s.beginCall none).2.2
  rw [hdepth, if_pos hd] at hnew
  rw [call_eq_resultOf]
  unfold callFor
  simp only [hnew, resultOf]

lemma call_of_admit_ok {function : Function} (h : x.module.admit f args = .ok function) {s : Machine}
    (hd : s.depth < x.config.maxDepth) :
    ∃ s', (s.call x f args).1 = resultOf (run x s.depth x.config.fuel .start s').1 ∧
      s'.Shows (.ofBody f function.body s.values.size none) s.calls.frames s.values.toList
        (Locals.initial function.body args) ∧
      s'.steps = s.beginCall.steps := by
  have hdepth : s.beginCall.depth = s.depth := by
    simp only [depth, beginCall_calls]
  obtain ⟨-, hlen, hnew⟩ := newFrame_of_admit_ok h s.beginCall none
  rw [hdepth, if_neg (by omega), beginCall_values] at hnew
  have hshows := shows_enter x s.beginCall f none hlen
  rw [beginCall_values, beginCall_calls] at hshows
  refine ⟨_, ?_, hshows, rfl⟩
  rw [call_eq_resultOf]
  unfold callFor
  simp only [hnew]
  rcases run x s.depth x.config.fuel .start _ with ⟨_ | _ | _, s'⟩ <;> rfl

lemma hitsLimit_or_yields (x : Setting) (f : FuncId) (args : List Value) (s : Machine) :
    hitsLimit (s.call x f args).1 ∨ ∃ n d, x.module.Yields f args (s.call x f args).1 n d := by
  rcases hadmit : x.module.admit f args with e | function
  · rw [call_of_admit_error hadmit]
    exact .inr ⟨0, 0, .refused hadmit⟩
  by_cases hd : x.config.maxDepth ≤ s.depth
  · rw [call_of_full hadmit hd]
    exact .inl rfl
  obtain ⟨s', hcall, hs', -⟩ := call_of_admit_ok hadmit (Nat.lt_of_not_le hd)
  rw [hcall, hitsLimit_resultOf]
  rcases explained x x.config.fuel (.start .entry) (newFrame_of_admit_ok hadmit s none).1 rfl hs'
    .start (Nat.le_of_eq s.depth_eq_length) with hl | ⟨r, n, d, hy, he⟩
  · exact .inl hl
  · refine .inr ⟨n, d, .activation hadmit ?_⟩
    cases r with
    | error e =>
      obtain ⟨s₂, hrun⟩ := he
      rw [hrun]
      exact hy
    | ok v =>
      obtain ⟨s₂, -, -, -, hrun⟩ := he
      rw [hrun]
      exact hy

/-- Limits that leave enough room for an activation do not change what it yields. -/
lemma call_eq_of_yields {r : Except Fault Value} {n d : Nat} (h : x.module.Yields f args r n d)
    {s : Machine} (hs : s.depth = 0) (hd : d ≤ x.config.maxDepth) (hn : n ≤ x.config.budget) :
    (s.call x f args).1 = r := by
  cases h with
  | refused hadmit => exact call_of_admit_error hadmit s
  | @activation function r n d hadmit hy =>
    have hpos := hy.depth_pos
    obtain ⟨s', hcall, hs', hsteps⟩ := call_of_admit_ok (s := s) hadmit (by omega)
    have hframes : s.calls.frames.length = 0 := by rw [← depth_eq_length, hs]
    have hsteps₀ : s'.steps = 0 := by
      rw [hsteps, beginCall, if_pos hs]
    have he := ends_of_yields hy (newFrame_of_admit_ok hadmit s none).1 rfl hs' .start
      (Nat.le_of_eq s.depth_eq_length) (by omega) (Config.le_fuel_of_le_budget hn)
      (by rw [hsteps₀, Nat.zero_add]; exact Config.allows_of_le_budget hn)
    rw [hcall]
    cases r with
    | error e =>
      obtain ⟨s₂, hrun⟩ := he
      rw [hrun]
      rfl
    | ok v =>
      obtain ⟨s₂, -, -, -, hrun⟩ := he
      rw [hrun]
      rfl

/-- A call yields one result, whatever the costs at which it is found. -/
theorem yields_unique {m : Module} {r r' : Except Fault Value} {n d n' d' : Nat}
    (h : m.Yields f args r n d) (h' : m.Yields f args r' n' d') : r = r' := by
  have hc := call_eq_of_yields (x := ⟨m, ⟨max d d', some (max n n')⟩⟩) (s := .fresh) h rfl
    (Nat.le_max_left d d') (Nat.le_max_left n n')
  have hc' := call_eq_of_yields (x := ⟨m, ⟨max d d', some (max n n')⟩⟩) (s := .fresh) h' rfl
    (Nat.le_max_right d d') (Nat.le_max_right n n')
  exact hc.symm.trans hc'

/-- A call on a machine without frames refines the recursive meaning of the module. If it is not cut off
by a limit, its result is the one that the activations yield. What activations yield is the result of the
call, unless that is cut off; and it is not cut off where the limits leave room for the steps and for the
activations that exist at once. -/
theorem call_refines_activations (x : Setting) (f : FuncId) (args : List Value) (s : Machine)
    (hs : s.depth = 0) :
    (hitsLimit (s.call x f args).1 = false →
      ∃ n d, x.module.Yields f args (s.call x f args).1 n d) ∧
    ∀ r n d, x.module.Yields f args r n d →
      ((s.call x f args).1 = r ∨ hitsLimit (s.call x f args).1) ∧
      (d ≤ x.config.maxDepth → n ≤ x.config.budget → (s.call x f args).1 = r) := by
  refine ⟨fun hl => ?_, fun r n d hy => ⟨?_, call_eq_of_yields hy hs⟩⟩
  · rcases hitsLimit_or_yields x f args s with hl' | hy
    · rw [hl] at hl'
      cases hl'
    · exact hy
  · rcases hitsLimit_or_yields x f args s with hl | ⟨n', d', hy'⟩
    · exact .inr hl
    · exact .inl (yields_unique hy' hy)

/-- Three activations of the factorial function exist at once before the first of them goes on. -/
theorem factorial_refines_activations :
    fresh.depth = 0 ∧ (fresh.call ⟨.factorial, ⟨3, some 100⟩⟩ ⟨0⟩ [.int 3]).1 = .ok (.int 6) ∧
      ∃ n d, Module.factorial.Yields ⟨0⟩ [.int 3] (.ok (.int 6)) n d := by
  have hcall : (fresh.call ⟨.factorial, ⟨3, some 100⟩⟩ ⟨0⟩ [.int 3]).1 = .ok (.int 6) := by
    decide +kernel
  have h := (call_refines_activations ⟨.factorial, ⟨3, some 100⟩⟩ ⟨0⟩ [.int 3] fresh rfl).1
  rw [hcall] at h
  exact ⟨rfl, hcall, h rfl⟩

end Calls

end Machine

end BlockIR
