import BlockIR.Proofs.Machine.Limits

/-!
# The step limit cuts a run exactly

A call with a step limit does what it does without one, up to the limit. If the call comes to an end within
that many steps, the limit changes nothing; otherwise it is cut off after exactly these steps.
-/

namespace BlockIR.Machine

section Points

variable {x : Setting} {base : Nat} {c : Control} {s s' : Machine}

lemma step_of_pending_exceeded {code : Action ⊕ Transfer} (hcode : s.pending? x c = some code) {limit : Nat}
    (h : x.config.exceeded? (s.steps + 1) = some limit) :
    s.step x base c = .failed (.stepLimit limit) { s with steps := s.steps + 1 } := by
  have hcount := count_step x base c s
  generalize s.step x base c = r at hcount
  cases hcount with
  | running _ hallowed => cases hallowed.symm.trans h
  | returned _ hallowed => cases hallowed.symm.trans h
  | failed _ hallowed => cases hallowed.symm.trans h
  | lost hnone => cases hnone.symm.trans hcode
  | cut _ hexceeded =>
    cases hexceeded.symm.trans h
    rfl

lemma steps_of_stop {o : Outcome} (hstop : (s.step x base c).stop? = some (o, s'))
    (hallowed : x.config.exceeded? (s.steps + 1) = none) :
    (∃ code, s.CarriesOut s' code) ∧ ((s.pending? x c).isSome → s'.steps = s.steps + 1) := by
  have hcount := count_step x base c s
  generalize s.step x base c = r at hcount hstop
  cases hcount with
  | running => cases hstop
  | returned _ _ h =>
    cases hstop
    exact ⟨⟨_, h⟩, fun _ => h.steps⟩
  | failed _ _ h =>
    cases hstop
    exact ⟨⟨_, h⟩, fun _ => h.steps⟩
  | lost hnone =>
    cases hstop
    refine ⟨⟨[], .refl _⟩, fun hsome => ?_⟩
    rw [hnone] at hsome
    cases hsome
  | cut _ hexceeded => cases hallowed.symm.trans hexceeded

lemma currentBlock_of_not_pending (h : s.pending? x c = none) :
    c = .start ∧ ∃ e, s.currentBlock x = .error e := by
  cases c with
  | within name rest t => cases h
  | start =>
    rw [pending?] at h
    cases hblock : s.currentBlock x with
    | error e => exact ⟨rfl, e, rfl⟩
    | ok b =>
      rw [hblock] at h
      cases h

lemma carriesOut_run (hfree : x.config.stepLimit = none) (base fuel : Nat) (c : Control) (s : Machine) :
    ∃ code, s.CarriesOut (run x base fuel c s).2 code := by
  rcases hrun : run x base fuel c s with ⟨o, s'⟩
  by_cases ho : o = .unfinished
  · subst ho
    obtain ⟨-, c', hreach⟩ := exists_reaches_of_run_unfinished hrun
    exact hreach.carriesOut
  · obtain ⟨c₁, s₁, hreach, -, hstop⟩ := exists_stop_of_run hrun ho
    have hallowed : x.config.exceeded? (s₁.steps + 1) = none := by
      rw [Config.exceeded?, hfree, Option.filter_none]
    obtain ⟨code, hcode⟩ := hreach.carriesOut
    obtain ⟨⟨code', hcode'⟩, -⟩ := steps_of_stop hstop hallowed
    exact ⟨_, hcode.trans hcode'⟩

end Points

section Calls

variable {x : Setting} {f : FuncId} {args : List Value} {s : Machine}

lemma unwind_executed (depth size : Nat) (r : Outcome × Machine) :
    (unwind depth size r).2.executed = r.2.executed := by
  rw [executed, events, unwind_log]
  rfl

lemma carriesOut_callFor (hfree : x.config.stepLimit = none) (fuel : Nat) (f : FuncId) (args : List Value)
    (s : Machine) : ∃ code, s.beginCall.CarriesOut (s.callFor x fuel f args).2 code := by
  cases hnew : s.beginCall.newFrame x f args none with
  | error e =>
    rw [callFor_of_refused hnew]
    exact ⟨[], .refl _⟩
  | ok fr =>
    rw [callFor_of_entered hnew]
    obtain ⟨code, hcode⟩ := carriesOut_run hfree s.depth fuel .start (s.beginCall.enter x fr args)
    have henter := (CarriesOut.refl s.beginCall).enter (x := x) fr args
    exact ⟨_, (henter.trans hcode).of_eq (unwind_steps _ _ _) (unwind_log _ _ _)⟩

lemma beginCall_log (s : Machine) : s.beginCall.log = s.log := by
  unfold beginCall
  split <;> rfl

lemma beginCall_executed (s : Machine) : s.beginCall.executed = s.executed := by
  rw [executed, events, beginCall_log]
  rfl

end Calls

section Limited

variable {m : Module} {depth limit base : Nat} {f : FuncId} {args : List Value} {s s' : Machine}

/-- A run with a step limit keeps step with one without, until all allowed steps are made and there is code
for one more. -/
lemma lockstep_limited (m : Module) (depth limit base : Nat) :
    Lockstep ⟨m, ⟨depth, some limit⟩⟩ ⟨m, ⟨depth, none⟩⟩ base (fun _ s => s.steps ≤ limit) fun c s =>
      s.steps = limit ∧ (s.pending? ⟨m, ⟨depth, some limit⟩⟩ c).isSome where
  step := by
    intro c s hs
    cases hlimit : (⟨depth, some limit⟩ : Config).exceeded? (s.steps + 1) with
    | none =>
      rcases step_same_or_cut (m := m) (a := ⟨depth, some limit⟩) (b := ⟨depth, none⟩) hlimit (.inl rfl)
        base c with heq | ⟨hfull, -⟩
      · exact .inl heq
      · exact absurd hfull.lt (Nat.lt_irrefl depth)
    | some l =>
      have hlt : limit < s.steps + 1 := by
        by_contra hle
        rw [Config.exceeded?_eq_none_iff.2 fun l hl => ?_] at hlimit
        · cases hlimit
        · cases hl
          exact Nat.le_of_not_lt hle
      cases hcode : s.pending? ⟨m, ⟨depth, some limit⟩⟩ c with
      | some code =>
        exact .inr ⟨by omega, rfl⟩
      | none =>
        obtain ⟨rfl, e, hblock⟩ := currentBlock_of_not_pending hcode
        have hblock' : s.currentBlock ⟨m, ⟨depth, none⟩⟩ = .error e := hblock
        rw [step_start_of_error hblock, step_start_of_error hblock']
        exact .inl rfl
  keeps := by
    intro c s c' s' _ hstep
    rw [steps_of_step_running hstep]
    exact Config.exceeded?_eq_none_iff.1 (carriesOut_of_step_running hstep).1 limit rfl

lemma callFor_free_ne_stepLimit (fuel l : Nat) :
    (s.callFor ⟨m, ⟨depth, none⟩⟩ fuel f args).1 ≠ .failed (.stepLimit l) := by
  intro h
  rcases refused_or_failed_of_callFor h with hnew | ⟨c, s₁, s₂, -, hstep⟩
  · rcases isLimit_of_newFrame hnew with hlimit | hdepth
    · cases hlimit
    · cases hdepth
  · rcases isLimit_of_step_failed hstep with hlimit | hdepth | ⟨_, hexceeded, -⟩
    · cases hlimit
    · cases hdepth
    · cases hexceeded

lemma steps_le_of_callFor_limited (hs : s.depth = 0) {fuel : Nat} {o : Outcome}
    (h : s.callFor ⟨m, ⟨depth, some limit⟩⟩ fuel f args = (o, s')) (ho : o ≠ .unfinished) :
    s'.steps ≤ limit ∨ ∃ l, o = .failed (.stepLimit l) := by
  have hbegin := beginCall_steps hs
  cases hnew : s.beginCall.newFrame ⟨m, ⟨depth, some limit⟩⟩ f args none with
  | error e =>
    rw [callFor_of_refused hnew] at h
    cases h
    left
    omega
  | ok fr =>
    obtain ⟨c₁, s₁, s₂, ⟨fr', hfr', hreach⟩, hlt, hstop, rfl⟩ := exists_stop_of_callFor hnew h ho
    rw [unwind_steps]
    have hallowed : ∀ {k}, (⟨depth, some limit⟩ : Config).exceeded? k = none → k ≤ limit :=
      fun h => Config.exceeded?_eq_none_iff.1 h limit rfl
    have hcount := count_step ⟨m, ⟨depth, some limit⟩⟩ s.depth c₁ s₁
    generalize s₁.step ⟨m, ⟨depth, some limit⟩⟩ s.depth c₁ = r at hcount hstop
    cases hcount with
    | running => cases hstop
    | returned _ hexceeded hcarries =>
      cases hstop
      exact .inl (hcarries.steps ▸ hallowed hexceeded)
    | failed _ hexceeded hcarries =>
      cases hstop
      exact .inl (hcarries.steps ▸ hallowed hexceeded)
    | lost hnone =>
      cases hstop
      left
      cases hreach with
      | refl =>
        rw [enter_steps, hbegin]
        exact Nat.zero_le _
      | tail _ hstep =>
        rw [steps_of_step_running hstep]
        exact hallowed (carriesOut_of_step_running hstep).1
    | cut _ hexceeded =>
      cases hstop
      exact .inr ⟨_, rfl⟩

lemma callFor_limited_of_free (hs : s.depth = 0) {o : Outcome}
    (h : s.Completes ⟨m, ⟨depth, none⟩⟩ f args o s') (hle : s'.steps ≤ limit) :
    s.callFor ⟨m, ⟨depth, some limit⟩⟩ (limit + 1) f args = (o, s') ∧
      s.callFor ⟨m, ⟨depth, none⟩⟩ (limit + 1) f args = (o, s') := by
  obtain ⟨ho, fuel, hcall⟩ := h
  cases hnew : s.beginCall.newFrame ⟨m, ⟨depth, none⟩⟩ f args none with
  | error e =>
    have hnew' : s.beginCall.newFrame ⟨m, ⟨depth, some limit⟩⟩ f args none = .error e := hnew
    rw [callFor_of_refused hnew] at hcall
    rw [callFor_of_refused hnew, callFor_of_refused hnew']
    exact ⟨hcall, hcall⟩
  | ok fr =>
    have hnew' : s.beginCall.newFrame ⟨m, ⟨depth, some limit⟩⟩ f args none = .ok fr := hnew
    obtain ⟨c₁, s₁, s₂, hduring, -, hstop, rfl⟩ := exists_stop_of_callFor hnew hcall ho
    rw [unwind_steps] at hle
    have hle : s₂.steps ≤ limit := hle
    have hbegin := beginCall_steps hs
    obtain ⟨⟨code, hcode⟩, hpending⟩ := steps_of_stop hstop rfl
    have hsteps := hcode.steps
    have hlock := lockstep_limited m depth limit s.depth
    have hzero : (s.beginCall.enter ⟨m, ⟨depth, some limit⟩⟩ fr args).steps ≤ limit := by
      rw [enter_steps, hbegin]
      exact Nat.zero_le _
    have hfuel : s₁.steps < s.beginCall.steps + (limit + 1) := by omega
    refine ⟨?_, hduring.callFor_of_stop hstop hfuel⟩
    rcases hlock.during hnew' hzero hnew hduring with ⟨hduring', hle'⟩ | ⟨c₀, s₀, -, -, hlt, hfull, -⟩
    · rcases hlock.step c₁ s₁ hle' with heq | ⟨hfull, hsome⟩
      · exact hduring'.callFor_of_stop (by rw [heq]; exact hstop) (by omega)
      · have := hpending hsome
        omega
    · omega

/-- A call that does not come to an end within the step limit without one comes to a point where all allowed
steps are made and there is code for one more, with the limit and without. -/
lemma exists_cut (hs : s.depth = 0)
    (h : ∀ o s', s.Completes ⟨m, ⟨depth, none⟩⟩ f args o s' → limit < s'.steps) :
    ∃ c s₁ code, s.During ⟨m, ⟨depth, some limit⟩⟩ f args c s₁ ∧ s.During ⟨m, ⟨depth, none⟩⟩ f args c s₁ ∧
      s₁.steps = limit ∧ s₁.pending? ⟨m, ⟨depth, some limit⟩⟩ c = some code := by
  have hbegin := beginCall_steps hs
  cases hnew : s.beginCall.newFrame ⟨m, ⟨depth, none⟩⟩ f args none with
  | error e =>
    have hlt := h (.failed e) s.beginCall ⟨by simp, 0, callFor_of_refused hnew 0⟩
    omega
  | ok fr =>
    have hnew' : s.beginCall.newFrame ⟨m, ⟨depth, some limit⟩⟩ f args none = .ok fr := hnew
    have hzero : (s.beginCall.enter ⟨m, ⟨depth, some limit⟩⟩ fr args).steps ≤ limit := by
      rw [enter_steps, hbegin]
      exact Nat.zero_le _
    rcases (lockstep_limited m depth limit s.depth).callFor hnew' hnew hzero (limit + 1) with
      heq | ⟨c₁, s₁, hlimited, hfree, -, -, hfull, hsome⟩
    · exfalso
      have ho : (s.callFor ⟨m, ⟨depth, some limit⟩⟩ (limit + 1) f args).1 ≠ .unfinished :=
        callFor_ne_unfinished rfl
      rcases hcall : s.callFor ⟨m, ⟨depth, some limit⟩⟩ (limit + 1) f args with ⟨o, s'⟩
      rw [hcall] at ho heq
      rcases steps_le_of_callFor_limited hs hcall ho with hle | ⟨l, rfl⟩
      · exact absurd (h o s' ⟨ho, _, heq.symm⟩) (Nat.not_lt.2 hle)
      · exact callFor_free_ne_stepLimit (limit + 1) l (congrArg Prod.fst heq.symm)
    · obtain ⟨code, hcode⟩ := Option.isSome_iff_exists.1 hsome
      exact ⟨c₁, s₁, code, hlimited, hfree, hfull, hcode⟩

lemma During.carriesOut {x : Setting} {c : Control} {s₁ : Machine} (h : s.During x f args c s₁) :
    ∃ code, s.beginCall.CarriesOut s₁ code := by
  obtain ⟨fr, -, hreach⟩ := h
  obtain ⟨code, hcode⟩ := hreach.carriesOut
  have henter := (CarriesOut.refl s.beginCall).enter (x := x) fr args
  exact ⟨_, henter.trans hcode⟩

lemma exists_point_of_cut (hs : s.depth = 0)
    (h : ∀ o s', s.Completes ⟨m, ⟨depth, none⟩⟩ f args o s' → limit < s'.steps) :
    ∃ c s₁ code, s.During ⟨m, ⟨depth, some limit⟩⟩ f args c s₁ ∧ s.During ⟨m, ⟨depth, none⟩⟩ f args c s₁ ∧
      s₁.steps = limit ∧ s.call ⟨m, ⟨depth, some limit⟩⟩ f args =
        (.error (.stepLimit limit), { s₁ with steps := limit + 1 }.truncate s.depth s.values.size) ∧
      s.beginCall.CarriesOut s₁ code ∧ code.length = limit := by
  obtain ⟨c, s₁, pending, hlimited, hfree, hsteps, hpending⟩ := exists_cut hs h
  have hbegin := beginCall_steps hs
  obtain ⟨code, hcode⟩ := hlimited.carriesOut
  have hlength : code.length = limit := by
    have := hcode.steps
    omega
  have hexceeded : (⟨depth, some limit⟩ : Config).exceeded? (s₁.steps + 1) = some limit := by
    rw [Config.exceeded?, hsteps]
    exact Option.filter_eq_some_iff.2 ⟨rfl, by simp⟩
  have hcall : s.callFor ⟨m, ⟨depth, some limit⟩⟩ (limit + 1) f args =
      unwind s.depth s.values.size (.failed (.stepLimit limit), { s₁ with steps := s₁.steps + 1 }) := by
    refine hlimited.callFor_of_stop ?_ (by omega)
    rw [step_of_pending_exceeded hpending hexceeded]
    rfl
  refine ⟨c, s₁, code, hlimited, hfree, hsteps, ?_, hcode, hlength⟩
  rw [call_of_callFor (x := ⟨m, ⟨depth, some limit⟩⟩) hcall, hsteps]
  rfl

lemma During.executed_callFor {x : Setting} {c : Control} {s₁ : Machine} (hfree : x.config.stepLimit = none)
    (hs : s.depth = 0) (h : s.During x f args c s₁) (hlog : s₁.log.isSome) {fuel : Nat}
    (hfuel : s₁.steps ≤ fuel) : ∃ rest, (s.callFor x fuel f args).2.executed = s₁.executed ++ rest := by
  obtain ⟨fr, hnew, hreach⟩ := h
  have hbegin := beginCall_steps hs
  obtain ⟨k, rfl⟩ : ∃ k, fuel = s₁.steps - (s.beginCall.enter x fr args).steps + k := by
    rw [enter_steps]
    exact ⟨fuel - s₁.steps, by omega⟩
  obtain ⟨rest, hrest⟩ := carriesOut_run hfree s.depth k c s₁
  rw [callFor_of_entered hnew, unwind_executed, hreach.run_eq, hrest.executed hlog]
  exact ⟨rest, rfl⟩

/-- A call that is cut off has carried out the first steps of the call without a step limit. -/
lemma carriesOut_of_cut (hs : s.depth = 0)
    (h : ∀ o s', s.Completes ⟨m, ⟨depth, none⟩⟩ f args o s' → limit < s'.steps) :
    (s.call ⟨m, ⟨depth, some limit⟩⟩ f args).1 = .error (.stepLimit limit) ∧
      ∃ c s₁ code, s.During ⟨m, ⟨depth, some limit⟩⟩ f args c s₁ ∧ s.During ⟨m, ⟨depth, none⟩⟩ f args c s₁ ∧
        s₁.steps = limit ∧ (s.call ⟨m, ⟨depth, some limit⟩⟩ f args).2 =
          { s₁ with steps := limit + 1 }.truncate s.depth s.values.size ∧
        code.length = limit ∧ (s.log.isSome →
          (s.call ⟨m, ⟨depth, some limit⟩⟩ f args).2.executed = s.executed ++ code ∧
          ∀ fuel, limit ≤ fuel → ∃ rest,
            (s.callFor ⟨m, ⟨depth, none⟩⟩ fuel f args).2.executed = s.executed ++ code ++ rest) := by
  obtain ⟨c, s₁, code, hlimited, hfree, hsteps, hcall, hcode, hlength⟩ := exists_point_of_cut hs h
  rw [hcall]
  refine ⟨rfl, c, s₁, code, hlimited, hfree, hsteps, rfl, hlength, fun hlog => ?_⟩
  have hlog' : s.beginCall.log.isSome := by rwa [beginCall_log]
  have hs₁ : s₁.executed = s.executed ++ code := by rw [hcode.executed hlog', beginCall_executed]
  refine ⟨hs₁, fun fuel hfuel => ?_⟩
  rw [← hs₁]
  exact hfree.executed_callFor rfl hs (hcode.log.trans hlog') (hsteps ▸ hfuel)

/-- A call on a machine without frames comes to an end with a step limit. If without the limit it comes to an
end within that many steps, both calls have the same result and leave the same machine. Otherwise the limited
call reports the limit: it is cut off at the point that the call without the limit comes to with as many steps
as the limit allows, and it has carried out the code that the other call carries out first. The steps that a
call without the limit counts are the code that it carries out. -/
theorem step_limit_cuts (m : Module) (depth : Nat) {limit : Nat} (hlimit : limit < Config.maxSteps)
    (f : FuncId) (args : List Value) {s : Machine} (hs : s.depth = 0) :
    (∃ o, s.Completes ⟨m, ⟨depth, some limit⟩⟩ f args o (s.call ⟨m, ⟨depth, some limit⟩⟩ f args).2 ∧
      (s.call ⟨m, ⟨depth, some limit⟩⟩ f args).1 = resultOf o) ∧
    (∀ o s', s.Completes ⟨m, ⟨depth, none⟩⟩ f args o s' → s'.steps ≤ limit →
      s.call ⟨m, ⟨depth, none⟩⟩ f args = (resultOf o, s') ∧
      s.call ⟨m, ⟨depth, some limit⟩⟩ f args = (resultOf o, s')) ∧
    ((∀ o s', s.Completes ⟨m, ⟨depth, none⟩⟩ f args o s' → limit < s'.steps) →
      (s.call ⟨m, ⟨depth, some limit⟩⟩ f args).1 = .error (.stepLimit limit) ∧
      ∃ c s₁ code, s.During ⟨m, ⟨depth, some limit⟩⟩ f args c s₁ ∧ s.During ⟨m, ⟨depth, none⟩⟩ f args c s₁ ∧
        s₁.steps = limit ∧ (s.call ⟨m, ⟨depth, some limit⟩⟩ f args).2 =
          { s₁ with steps := limit + 1 }.truncate s.depth s.values.size ∧
        code.length = limit ∧ (s.log.isSome →
          (s.call ⟨m, ⟨depth, some limit⟩⟩ f args).2.executed = s.executed ++ code ∧
          ∀ fuel, limit ≤ fuel → ∃ rest,
            (s.callFor ⟨m, ⟨depth, none⟩⟩ fuel f args).2.executed = s.executed ++ code ++ rest)) ∧
    (∀ o s', s.Completes ⟨m, ⟨depth, none⟩⟩ f args o s' → s.log.isSome →
      ∃ code, s'.executed = s.executed ++ code ∧ code.length = s'.steps) := by
  refine ⟨completes_call rfl, fun o s' hcompletes hle => ?_, carriesOut_of_cut hs, ?_⟩
  · obtain ⟨hlimited, hfree⟩ := callFor_limited_of_free hs hcompletes hle
    have hmax := callFor_mono (Nat.succ_le_of_lt hlimit) hfree hcompletes.1
    exact ⟨call_of_callFor hmax, call_of_callFor hlimited⟩
  · rintro o s' ⟨-, fuel, hcall⟩ hlog
    obtain ⟨code, hcode⟩ := carriesOut_callFor (x := ⟨m, ⟨depth, none⟩⟩) rfl fuel f args s
    rw [hcall] at hcode
    refine ⟨code, ?_, ?_⟩
    · rw [hcode.executed (by rwa [beginCall_log]), beginCall_executed]
    · rw [hcode.steps, beginCall_steps hs, Nat.zero_add]

/-- The factorial of three takes sixteen steps: a limit of sixteen changes nothing, and one of fifteen lets
the call carry out fifteen of them. -/
theorem factorial_cut_after_fifteen :
    watched.depth = 0 ∧ 15 < Config.maxSteps ∧ 16 < Config.maxSteps ∧
      (watched.call ⟨.factorial, ⟨3, some 16⟩⟩ ⟨0⟩ [.int 3]).1 = .ok (.int 6) ∧
      (watched.call ⟨.factorial, ⟨3, some 15⟩⟩ ⟨0⟩ [.int 3]).1 = .error (.stepLimit 15) ∧
      (watched.call ⟨.factorial, ⟨3, some 15⟩⟩ ⟨0⟩ [.int 3]).2.executed.length = 15 := by
  have hfree : (watched.callFor ⟨.factorial, ⟨3, none⟩⟩ 16 ⟨0⟩ [.int 3]).1 = .returned (.int 6) ∧
      (watched.callFor ⟨.factorial, ⟨3, none⟩⟩ 16 ⟨0⟩ [.int 3]).2.steps = 16 := by
    decide +kernel
  rcases hcall : watched.callFor ⟨.factorial, ⟨3, none⟩⟩ 16 ⟨0⟩ [.int 3] with ⟨o, s'⟩
  rw [hcall] at hfree
  obtain ⟨rfl : o = .returned (.int 6), hsteps : s'.steps = 16⟩ := hfree
  have hcompletes : watched.Completes ⟨.factorial, ⟨3, none⟩⟩ ⟨0⟩ [.int 3] (.returned (.int 6)) s' :=
    ⟨by simp, 16, hcall⟩
  obtain ⟨-, hsame, -, -⟩ :=
    step_limit_cuts .factorial 3 (show 16 < Config.maxSteps by decide) ⟨0⟩ [.int 3] (s := watched) rfl
  obtain ⟨-, -, hcut, -⟩ :=
    step_limit_cuts .factorial 3 (show 15 < Config.maxSteps by decide) ⟨0⟩ [.int 3] (s := watched) rfl
  obtain ⟨hresult, _, _, code, -, -, -, -, hlength, hcode⟩ := hcut fun o s₁ h => by
    rw [(h.unique hcompletes).2, hsteps]
    decide
  refine ⟨rfl, by decide, by decide, ?_, hresult, ?_⟩
  · rw [(hsame _ s' hcompletes (Nat.le_of_eq hsteps)).2]
    rfl
  · rw [(hcode rfl).1]
    exact hlength

end Limited

end BlockIR.Machine
