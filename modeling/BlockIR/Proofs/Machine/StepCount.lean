import BlockIR.Proofs.Machine.Raise
import BlockIR.Proofs.Machine.StepLimit

/-!
# What the steps of a call count

A call counts the statements and terminators that it carries out, whatever it ends with. There is one exception:
where the step limit stops a call, the step that was not allowed is counted too.
-/

namespace BlockIR

namespace Config

/-- A run ends like this because of the step limit. -/
def Stops (c : Config) (o : Outcome) : Prop := ∃ limit ∈ c.stepLimit, o = .failed (.stepLimit limit)

variable {c : Config}

lemma not_stops_returned (v : Value) : ¬ c.Stops (.returned v) := by
  rintro ⟨limit, -, h⟩
  cases h

lemma not_stops_unfinished : ¬ c.Stops .unfinished := by
  rintro ⟨limit, -, h⟩
  cases h

lemma not_stops_failed {e : Fault} (h : ∀ limit, e ≠ .stepLimit limit) : ¬ c.Stops (.failed e) := by
  rintro ⟨limit, -, heq⟩
  exact h limit (Outcome.failed.inj heq)

end Config

lemma Fault.ne_stepLimit_of_isLimit {e : Fault} (h : e.isLimit = false) (limit : Nat) : e ≠ .stepLimit limit := by
  rintro rfl
  cases h

namespace Machine

/-- From one machine to the end of a run this code is recorded, and counted. A run that the step limit stops has
counted one step more. -/
def Tallies (x : Setting) (o : Outcome) (s s' : Machine) (code : List CodeInBlock) : Prop :=
  ∃ s₁, s.CarriesOut s₁ code ∧ s'.log = s₁.log ∧
    (¬ x.config.Stops o ∧ s'.steps = s₁.steps ∨ x.config.Stops o ∧ s'.steps = s₁.steps + 1)

section Tallies

variable {x : Setting} {o : Outcome} {s s₁ s' s'' : Machine} {code code' : List CodeInBlock}

lemma CarriesOut.tallies (h : s.CarriesOut s' code) (ho : ¬ x.config.Stops o) : Tallies x o s s' code :=
  ⟨s', h, rfl, .inl ⟨ho, rfl⟩⟩

lemma CarriesOut.trans_tallies (h : s.CarriesOut s₁ code) (h' : Tallies x o s₁ s' code') :
    Tallies x o s s' (code ++ code') := by
  obtain ⟨s₂, hcode, hend⟩ := h'
  exact ⟨s₂, h.trans hcode, hend⟩

lemma Tallies.of_eq (h : Tallies x o s s' code) (hsteps : s''.steps = s'.steps) (hlog : s''.log = s'.log) :
    Tallies x o s s'' code := by
  obtain ⟨s₂, hcode, hlog', hend⟩ := h
  exact ⟨s₂, hcode, hlog.trans hlog', hsteps ▸ hend⟩

lemma Tallies.executed (h : Tallies x o s s' code) (hlog : s.log.isSome) :
    s'.executed = s.executed ++ code := by
  obtain ⟨s₂, hcode, hlog', -⟩ := h
  rw [← hcode.executed hlog]
  simp only [Machine.executed, events, hlog']

end Tallies

section Runs

variable {x : Setting} {base : Nat} {c : Control} {o : Outcome} {s s' : Machine}

lemma exists_tallies_of_stop (hstop : (s.step x base c).stop? = some (o, s')) :
    ∃ code, Tallies x o s s' code := by
  have hcount := count_step x base c s
  cases hstep : s.step x base c with
  | running c' s₁ =>
    rw [hstep] at hstop
    cases hstop
  | returned v s₁ =>
    rw [hstep] at hstop hcount
    cases hstop
    cases hcount with
    | returned _ _ h => exact ⟨_, h.tallies (Config.not_stops_returned v)⟩
  | failed e s₁ =>
    rw [hstep] at hstop hcount
    cases hstop
    cases hcount with
    | failed _ hallowed h =>
      refine ⟨_, h.tallies (Config.not_stops_failed fun limit he => ?_)⟩
      rcases isLimit_of_step_failed hstep with hlimit | hdepth | ⟨_, hexceeded, -⟩
      · exact Fault.ne_stepLimit_of_isLimit hlimit limit he
      · cases hdepth.symm.trans he
      · cases hallowed.symm.trans hexceeded
    | lost hnone =>
      refine ⟨[], (CarriesOut.refl s).tallies (Config.not_stops_failed ?_)⟩
      obtain ⟨rfl, e', hblock⟩ := currentBlock_of_not_pending hnone
      rw [step_start_of_error hblock] at hstep
      cases hstep
      exact Fault.ne_stepLimit_of_isLimit (noLimit_currentBlock x s e hblock)
    | @cut limit code _ hexceeded =>
      have hlimit : limit ∈ x.config.stepLimit := (Option.filter_eq_some_iff.1 hexceeded).1
      exact ⟨[], s, .refl s, rfl, .inr ⟨⟨limit, hlimit, rfl⟩, rfl⟩⟩

lemma exists_tallies_of_run {fuel : Nat} (h : run x base fuel c s = (o, s')) : ∃ code, Tallies x o s s' code := by
  by_cases ho : o = .unfinished
  · subst ho
    obtain ⟨-, c', hreach⟩ := exists_reaches_of_run_unfinished h
    obtain ⟨code, hcode⟩ := hreach.carriesOut
    exact ⟨code, hcode.tallies Config.not_stops_unfinished⟩
  · obtain ⟨c₁, s₁, hreach, -, hstop⟩ := exists_stop_of_run h ho
    obtain ⟨code, hcode⟩ := hreach.carriesOut
    obtain ⟨code', hcode'⟩ := exists_tallies_of_stop hstop
    exact ⟨code ++ code', hcode.trans_tallies hcode'⟩

end Runs

section Calls

variable {x : Setting} {f : FuncId} {args : List Value} {s : Machine}

lemma exists_tallies_of_callFor {fuel : Nat} {o : Outcome} {s' : Machine}
    (h : s.callFor x fuel f args = (o, s')) : ∃ code, Tallies x o s.beginCall s' code := by
  cases hnew : s.beginCall.newFrame x f args none with
  | error e =>
    rw [callFor_of_refused hnew] at h
    cases h
    refine ⟨[], (CarriesOut.refl _).tallies (Config.not_stops_failed fun limit he => ?_)⟩
    rcases isLimit_of_newFrame hnew with hlimit | hdepth
    · exact Fault.ne_stepLimit_of_isLimit hlimit limit he
    · cases hdepth.symm.trans he
  | ok fr =>
    rw [callFor_of_entered hnew] at h
    rcases hrun : run x s.depth fuel .start (s.beginCall.enter x fr args) with ⟨o₁, s₁⟩
    rw [hrun] at h
    cases h
    obtain ⟨code, hcode⟩ := exists_tallies_of_run hrun
    have henter := (CarriesOut.refl s.beginCall).enter (x := x) fr args
    exact ⟨_, (henter.trans_tallies hcode).of_eq (unwind_steps _ _ _) (unwind_log _ _ _)⟩

/-- A call has the fault of the step limit exactly if the step limit stopped it. A call without a limit of which
the steps can no longer be counted was not stopped. -/
lemma stops_iff (x : Setting) (f : FuncId) (args : List Value) (s : Machine) :
    x.config.Stops (s.callFor x x.config.fuel f args).1 ↔
      ∃ limit ∈ x.config.stepLimit, (s.call x f args).1 = .error (.stepLimit limit) := by
  rw [call_eq]
  constructor
  · rintro ⟨limit, hlimit, ho⟩
    exact ⟨limit, hlimit, by rw [ho]; rfl⟩
  · rintro ⟨limit, hlimit, hr⟩
    have hfuel : x.config.fuel = limit + 1 := by rw [Config.fuel, Option.mem_def.1 hlimit]
    have hne : (s.callFor x x.config.fuel f args).1 ≠ .unfinished := by
      rw [hfuel]
      exact callFor_ne_unfinished hlimit
    refine ⟨limit, hlimit, ?_⟩
    cases ho : (s.callFor x x.config.fuel f args).1 with
    | returned v =>
      rw [ho] at hr
      cases hr
    | failed e =>
      rw [ho] at hr
      exact congrArg _ (Except.error.inj hr)
    | unfinished => exact absurd ho hne

lemma exists_tallies_of_call (x : Setting) (f : FuncId) (args : List Value) (s : Machine) :
    ∃ code, (s.log.isSome → (s.call x f args).2.executed = s.executed ++ code) ∧
      (¬ x.config.Stops (s.callFor x x.config.fuel f args).1 →
        (s.call x f args).2.steps = s.beginCall.steps + code.length) ∧
      (x.config.Stops (s.callFor x x.config.fuel f args).1 →
        (s.call x f args).2.steps = s.beginCall.steps + code.length + 1) := by
  rw [call_eq]
  rcases hcall : s.callFor x x.config.fuel f args with ⟨o, s'⟩
  obtain ⟨code, hcode⟩ := exists_tallies_of_callFor hcall
  refine ⟨code, fun hlog => ?_, ?_⟩
  · rw [hcode.executed (by rwa [beginCall_log]), beginCall_executed]
  · obtain ⟨s₁, hsteps, -, ⟨hgoes, heq⟩ | ⟨hstops, heq⟩⟩ := hcode
    · exact ⟨fun _ => heq.trans hsteps.steps, fun h => absurd h hgoes⟩
    · exact ⟨fun h => absurd hstops h, fun _ => heq.trans (congrArg (· + 1) hsteps.steps)⟩

/-- A call on a machine without frames counts as many steps as it carries out statements and terminators. These
are recorded if events are, and a machine that records them shows as many. Only a call that the step limit stops
counts one step more: the one that was not allowed. -/
theorem steps_eq_executed (x : Setting) (f : FuncId) (args : List Value) {s : Machine} (hs : s.depth = 0) :
    ∃ code : List CodeInBlock,
      (s.log.isSome → (s.call x f args).2.executed = s.executed ++ code) ∧
      (watched.call x f args).2.executed.length = code.length ∧
      ((¬ ∃ limit ∈ x.config.stepLimit, (s.call x f args).1 = .error (.stepLimit limit)) →
        (s.call x f args).2.steps = code.length) ∧
      ((∃ limit ∈ x.config.stepLimit, (s.call x f args).1 = .error (.stepLimit limit)) →
        (s.call x f args).2.steps = code.length + 1) := by
  obtain ⟨code, hexecuted, hgoes, hstops⟩ := exists_tallies_of_call x f args s
  obtain ⟨seen, hseen, hgoes', hstops'⟩ := exists_tallies_of_call x f args watched
  have hseen : (watched.call x f args).2.executed = seen := hseen rfl
  rw [beginCall_steps hs, Nat.zero_add] at hgoes hstops
  rw [beginCall_steps rfl, Nat.zero_add] at hgoes' hstops'
  rw [stops_iff] at hgoes hstops hgoes' hstops'
  obtain ⟨hresult, hsteps⟩ := call_fresh x f args s hs
  obtain ⟨hresult', hsteps'⟩ := call_fresh x f args watched rfl
  -- Both calls have the same result, so both counts have the step that was not allowed, or none has it.
  rw [hresult', ← hresult, hsteps', ← hsteps] at hgoes' hstops'
  refine ⟨code, hexecuted, ?_, hgoes, hstops⟩
  rw [hseen]
  by_cases h : ∃ limit ∈ x.config.stepLimit, (s.call x f args).1 = .error (.stepLimit limit)
  · exact Nat.succ.inj ((hstops' h).symm.trans (hstops h))
  · exact (hgoes' h).symm.trans (hgoes h)

/-- The factorial of three counts its sixteen steps, and as many if it is stopped after fifteen. -/
theorem factorial_counts_sixteen :
    fresh.depth = 0 ∧ (fresh.call ⟨.factorial, ⟨3, some 16⟩⟩ ⟨0⟩ [.int 3]).1 = .ok (.int 6) ∧
      (fresh.call ⟨.factorial, ⟨3, some 16⟩⟩ ⟨0⟩ [.int 3]).2.steps =
        (watched.call ⟨.factorial, ⟨3, some 16⟩⟩ ⟨0⟩ [.int 3]).2.executed.length ∧
      (fresh.call ⟨.factorial, ⟨3, some 15⟩⟩ ⟨0⟩ [.int 3]).1 = .error (.stepLimit 15) ∧
      (fresh.call ⟨.factorial, ⟨3, some 15⟩⟩ ⟨0⟩ [.int 3]).2.steps =
        (watched.call ⟨.factorial, ⟨3, some 15⟩⟩ ⟨0⟩ [.int 3]).2.executed.length + 1 := by
  have hreturned : (fresh.call ⟨.factorial, ⟨3, some 16⟩⟩ ⟨0⟩ [.int 3]).1 = .ok (.int 6) := by rfl
  have hstopped : (fresh.call ⟨.factorial, ⟨3, some 15⟩⟩ ⟨0⟩ [.int 3]).1 = .error (.stepLimit 15) := by rfl
  obtain ⟨code, -, hlength, hgoes, -⟩ :=
    steps_eq_executed ⟨.factorial, ⟨3, some 16⟩⟩ ⟨0⟩ [.int 3] (s := fresh) rfl
  obtain ⟨code', -, hlength', -, hstops⟩ :=
    steps_eq_executed ⟨.factorial, ⟨3, some 15⟩⟩ ⟨0⟩ [.int 3] (s := fresh) rfl
  refine ⟨rfl, hreturned, ?_, hstopped, ?_⟩
  · rw [hlength]
    refine hgoes ?_
    rintro ⟨limit, -, h⟩
    cases hreturned.symm.trans h
  · rw [hlength']
    exact hstops ⟨15, rfl, hstopped⟩

end Calls

end Machine

/-- A module with one function, which does nothing but jump to where it begins. -/
def Module.spinning : Module :=
  ((Module.empty "loops").declare "spin" []).define ⟨0⟩ ⟨0, 0, 0, .ofList [⟨[], ⟨.goto ⟨0⟩, .none⟩⟩]⟩

/-- Two steps are counted of a call that is allowed one, though it carries out one only. -/
theorem Machine.spinning_counts_two_of_one :
    (watched.call ⟨.spinning, ⟨1, some 1⟩⟩ ⟨0⟩ []).1 = .error (.stepLimit 1) ∧
      (watched.call ⟨.spinning, ⟨1, some 1⟩⟩ ⟨0⟩ []).2.executed = [(⟨0⟩, .inr (.goto ⟨0⟩))] ∧
      (watched.call ⟨.spinning, ⟨1, some 1⟩⟩ ⟨0⟩ []).2.steps = 2 := by
  decide +kernel

end BlockIR
