import BlockIR.Proofs.Machine.Limits

/-!
# The depth limit only truncates

Under a higher limit on the depth a call goes through the points it goes through under a lower one, until one
frame more is pushed than the lower limit allows.
-/

namespace BlockIR.Machine

lemma jump_depth (b : BlockId) (s : Machine) : (s.jump b).depth = s.depth := by
  obtain ⟨⟨frames, depth, hdepth⟩, values, steps, log⟩ := s
  cases frames <;> rfl

section Steps

variable {x : Setting} {base : Nat} {c c' : Control} {s s' : Machine}

lemma SameStacks.depth (h : SameStacks s s') : s'.depth = s.depth := congrArg CallStack.depth h.calls

lemma depth_lt_of_newFrame {f : FuncId} {args : List Value} {returnTo : Option (Nat × BlockId)} {fr : Frame}
    (h : s.newFrame x f args returnTo = .ok fr) : s.depth < x.config.maxDepth := by
  obtain ⟨function, -, -, hdepth, -⟩ := newFrame_eq_ok h
  exact hdepth

lemma depth_le_of_step_running (hs : s.depth ≤ x.config.maxDepth) (h : s.step x base c = .running c' s') :
    s'.depth ≤ x.config.maxDepth := by
  have heffect := effect_step x base s c
  rw [h] at heffect
  cases heffect with
  | keep hsame => rwa [hsame.depth]
  | write _ hsame =>
    rw [hsame.depth]
    exact hs
  | jump hsame => rwa [hsame.depth, jump_depth]
  | enter _ hnew hsame =>
    rw [hsame.depth]
    exact depth_lt_of_newFrame hnew
  | goOn _ _ _ hsame =>
    rw [hsame.depth, jump_depth]
    exact Nat.le_trans (Nat.sub_le _ 1) hs

lemma During.callFor_of_failed {f : FuncId} {args : List Value} {e : Fault} (h : s.During x f args c s')
    (hstep : ∃ s₁, s'.step x s.depth c = .failed e s₁) {fuel : Nat} (hfuel : s'.steps < s.beginCall.steps + fuel) :
    (s.callFor x fuel f args).1 = .failed e := by
  obtain ⟨s₁, hstep⟩ := hstep
  rw [h.callFor_of_stop (r := (.failed e, s₁)) (by rw [hstep]; rfl) hfuel]
  rfl

lemma Reaches.allows (h : Reaches x base c s c' s') (hs : x.config.Allows s.steps) :
    x.config.Allows s'.steps := by
  induction h with
  | refl => exact hs
  | tail _ hstep _ =>
    rw [steps_of_step_running hstep]
    exact Config.exceeded?_eq_none_iff.1 (carriesOut_of_step_running hstep).1

end Steps

section Settings

variable {m : Module} {limit : Option Nat} {depth depth' : Nat} {f : FuncId} {args : List Value}
  {s : Machine}

/-- A run under a lower limit on the depth keeps step with one under a higher limit, until the lower one is
reached and one more frame would be pushed. -/
lemma lockstep_depth (m : Module) (limit : Option Nat) (h : depth < depth') (base : Nat) :
    Lockstep ⟨m, ⟨depth, limit⟩⟩ ⟨m, ⟨depth', limit⟩⟩ base (fun _ s => s.depth ≤ depth) fun c s =>
      (∃ s', s.step ⟨m, ⟨depth, limit⟩⟩ base c = .failed (.stackOverflow depth) s') ∧
      ∃ s', s.step ⟨m, ⟨depth', limit⟩⟩ base c = .running .start s' ∧ depth < s'.depth where
  step := by
    intro c s hs
    rcases step_same_or_cut (m := m) (a := ⟨depth, limit⟩) (b := ⟨depth', limit⟩) (s := s) rfl (.inr ⟨h, hs⟩)
      base c with heq | ⟨hfull, hlow, s', hhigh, hdepth⟩
    · exact .inl heq
    · have hfull' : s.depth = depth := hfull.depth
      exact .inr ⟨hlow, s', hhigh, by omega⟩
  keeps := by
    intro c s c' s' hs hstep
    exact depth_le_of_step_running hs hstep

lemma callFor_ne_stackOverflow (h : depth ≠ depth') (fuel : Nat) :
    (s.callFor ⟨m, ⟨depth', limit⟩⟩ fuel f args).1 ≠ .failed (.stackOverflow depth) := by
  intro hcall
  rcases refused_or_failed_of_callFor hcall with hnew | ⟨c, s₁, s₂, -, hstep⟩
  · rcases isLimit_of_newFrame hnew with hlimit | hdepth
    · cases hlimit
    · exact h (Fault.stackOverflow.inj hdepth)
  · rcases isLimit_of_step_failed hstep with hlimit | hdepth | ⟨l, -, hl⟩
    · cases hlimit
    · exact h (Fault.stackOverflow.inj hdepth)
    · cases hl

/-- Two calls with limits on the depth: they are the same and stay within the lower limit, or the one under
the lower limit is cut off and the other one goes beyond it. -/
def SameOrOverflow (m : Module) (limit : Option Nat) (depth depth' : Nat) (f : FuncId) (args : List Value)
    (s : Machine) (fuel : Nat) : Prop :=
  (s.callFor ⟨m, ⟨depth, limit⟩⟩ fuel f args = s.callFor ⟨m, ⟨depth', limit⟩⟩ fuel f args ∧
    ∀ c s', s.During ⟨m, ⟨depth', limit⟩⟩ f args c s' → s'.steps ≤ fuel → s'.depth ≤ depth) ∨
  ((s.callFor ⟨m, ⟨depth, limit⟩⟩ fuel f args).1 = .failed (.stackOverflow depth) ∧
    ∃ c s', s.During ⟨m, ⟨depth', limit⟩⟩ f args c s' ∧ depth < s'.depth ∧ s'.steps ≤ fuel)

lemma sameOrOverflow_of_entered (h : depth < depth') (hs : s.depth = 0) {fr : Frame}
    (hlow : s.beginCall.newFrame ⟨m, ⟨depth, limit⟩⟩ f args none = .ok fr)
    (hhigh : s.beginCall.newFrame ⟨m, ⟨depth', limit⟩⟩ f args none = .ok fr) (fuel : Nat) :
    s.SameOrOverflow m limit depth depth' f args fuel := by
  have hbegin := beginCall_steps hs
  have hpos : s.beginCall.depth < depth := depth_lt_of_newFrame hlow
  have hlock := lockstep_depth m limit h s.depth
  rcases hlock.callFor hlow hhigh hpos fuel with
    hsame | ⟨c₁, s₁, hl, ⟨fr', hfr', hreach⟩, -, hlt, hfail, s', hrun, hdeep⟩
  · refine .inl ⟨hsame, fun c s' hduring hle => ?_⟩
    rcases hlock.during hlow hpos hhigh hduring with ⟨-, hle'⟩ | ⟨c₁, s₁, hl, -, hlt, hfail, -⟩
    · exact hle'
    · have hoverflow : (s.callFor ⟨m, ⟨depth, limit⟩⟩ fuel f args).1 = .failed (.stackOverflow depth) :=
        hl.callFor_of_failed hfail (by omega)
      rw [hsame] at hoverflow
      exact absurd hoverflow (callFor_ne_stackOverflow (Nat.ne_of_lt h) fuel)
  · refine .inr ⟨hl.callFor_of_failed hfail (by omega), .start, s', ⟨fr', hfr', hreach.tail hrun⟩, hdeep, ?_⟩
    rw [steps_of_step_running hrun]
    omega

lemma sameOrOverflow (m : Module) (limit : Option Nat) (f : FuncId) (args : List Value) (h : depth < depth')
    (hs : s.depth = 0) (fuel : Nat) : s.SameOrOverflow m limit depth depth' f args fuel := by
  have hdepth : s.beginCall.depth = 0 := (sameStacks_beginCall s).depth.trans hs
  rcases newFrame_same_or_cut (m := m) (s := s.beginCall) (a := ⟨depth, limit⟩) (b := ⟨depth', limit⟩)
    (.inr ⟨h, by simp only [hdepth, Nat.zero_le]⟩) f args none with heq | ⟨hfull, hlow, fr, hhigh⟩
  · cases hnew : s.beginCall.newFrame ⟨m, ⟨depth', limit⟩⟩ f args none with
    | ok fr => exact sameOrOverflow_of_entered h hs (heq.trans hnew) hnew fuel
    | error e =>
      refine .inl ⟨?_, ?_⟩
      · rw [callFor_of_refused hnew, callFor_of_refused (heq.trans hnew)]
      · rintro c s' ⟨fr, hfr, -⟩
        cases hnew.symm.trans hfr
  · -- The frame of the call itself is one too many.
    refine .inr ⟨?_, .start, _, ⟨fr, hhigh, .refl _ _⟩, ?_, ?_⟩
    · rw [callFor_of_refused hlow]
    · have hzero : s.beginCall.depth = depth := hfull.depth
      exact hzero ▸ Nat.lt_succ_self s.beginCall.depth
    · rw [enter_steps, beginCall_steps hs]
      exact Nat.zero_le _

lemma During.steps_le_budget {x : Setting} {c : Control} {s' : Machine} (h : s.During x f args c s')
    (hs : s.depth = 0) (hle : s'.steps ≤ x.config.fuel) : s'.steps ≤ x.config.budget := by
  obtain ⟨fr, -, hreach⟩ := h
  cases hlimit : x.config.stepLimit with
  | none => simpa only [Config.fuel, Config.budget, hlimit, Option.getD_none] using hle
  | some l =>
    have hzero : x.config.Allows (s.beginCall.enter x fr args).steps := by
      rw [enter_steps, beginCall_steps hs]
      exact fun l _ => Nat.zero_le l
    rw [Config.budget, hlimit]
    exact hreach.allows hzero l hlimit

lemma call_fst_eq_stackOverflow_iff {x : Setting} {n : Nat} :
    (s.call x f args).1 = .error (.stackOverflow n) ↔
      (s.callFor x x.config.fuel f args).1 = .failed (.stackOverflow n) := by
  rw [call_eq]
  cases (s.callFor x x.config.fuel f args).1 with
  | returned v => simp only [resultOf, reduceCtorEq]
  | failed e => simp only [resultOf, Except.error.injEq, Outcome.failed.injEq]
  | unfinished => simp only [resultOf, Except.error.injEq, reduceCtorEq]

/-- A call on a machine without frames, with one of two limits on the depth. If the lower limit does not cut
it off, the higher one does not change it. The lower limit cuts it off exactly if the call with the higher
limit comes to a point with more frames; only the steps that a machine can count are looked at. The same holds
of the calls that run for some number of steps, whatever this number is. -/
theorem depth_limit_truncates (m : Module) (limit : Option Nat) {depth depth' : Nat} (h : depth < depth')
    (f : FuncId) (args : List Value) {s : Machine} (hs : s.depth = 0) :
    let low : Setting := ⟨m, ⟨depth, limit⟩⟩
    let high : Setting := ⟨m, ⟨depth', limit⟩⟩
    ((s.call low f args).1 ≠ .error (.stackOverflow depth) → s.call high f args = s.call low f args) ∧
    ((s.call low f args).1 = .error (.stackOverflow depth) ↔
      ∃ c s', s.During high f args c s' ∧ depth < s'.depth ∧ s'.steps ≤ high.config.budget) ∧
    ∀ fuel,
      ((s.callFor low fuel f args).1 ≠ .failed (.stackOverflow depth) →
        s.callFor high fuel f args = s.callFor low fuel f args) ∧
      ((s.callFor low fuel f args).1 = .failed (.stackOverflow depth) ↔
        ∃ c s', s.During high f args c s' ∧ depth < s'.depth ∧ s'.steps ≤ fuel) := by
  intro low high
  have hfuel : ∀ fuel,
      ((s.callFor low fuel f args).1 ≠ .failed (.stackOverflow depth) →
        s.callFor high fuel f args = s.callFor low fuel f args) ∧
      ((s.callFor low fuel f args).1 = .failed (.stackOverflow depth) ↔
        ∃ c s', s.During high f args c s' ∧ depth < s'.depth ∧ s'.steps ≤ fuel) := by
    intro fuel
    rcases sameOrOverflow m limit f args h hs fuel with ⟨hsame, hle⟩ | ⟨hoverflow, hdeep⟩
    · refine ⟨fun _ => hsame.symm, fun hoverflow => ?_, ?_⟩
      · exact absurd (hsame ▸ hoverflow) (callFor_ne_stackOverflow (Nat.ne_of_lt h) fuel)
      · rintro ⟨c, s', hduring, hlt, hsteps⟩
        exact absurd (hle c s' hduring hsteps) (Nat.not_le_of_lt hlt)
    · exact ⟨fun hne => absurd hoverflow hne, fun _ => hdeep, fun _ => hoverflow⟩
  refine ⟨fun hne => ?_, ?_, hfuel⟩
  · have hne' := mt call_fst_eq_stackOverflow_iff.2 hne
    have hsame := (hfuel low.config.fuel).1 hne'
    rw [call_eq, call_eq]
    exact congrArg (fun r => (resultOf r.1, r.2)) hsame
  · rw [call_fst_eq_stackOverflow_iff, (hfuel low.config.fuel).2]
    constructor
    · rintro ⟨c, s', hduring, hlt, hsteps⟩
      exact ⟨c, s', hduring, hlt, hduring.steps_le_budget hs hsteps⟩
    · rintro ⟨c, s', hduring, hlt, hsteps⟩
      exact ⟨c, s', hduring, hlt, Config.le_fuel_of_le_budget hsteps⟩

/-- The factorial of three has three frames at once: for two frames the call overflows, and more than three
change nothing. -/
theorem factorial_overflows_at_two :
    fresh.depth = 0 ∧ 2 < 3 ∧ 3 < 4 ∧
      (fresh.call ⟨.factorial, ⟨2, some 16⟩⟩ ⟨0⟩ [.int 3]).1 = .error (.stackOverflow 2) ∧
      (∃ c s', fresh.During ⟨.factorial, ⟨3, some 16⟩⟩ ⟨0⟩ [.int 3] c s' ∧ 2 < s'.depth) ∧
      (fresh.call ⟨.factorial, ⟨4, some 16⟩⟩ ⟨0⟩ [.int 3]).1 = .ok (.int 6) := by
  have htwo : (fresh.call ⟨.factorial, ⟨2, some 16⟩⟩ ⟨0⟩ [.int 3]).1 = .error (.stackOverflow 2) := by
    decide +kernel
  have hthree : (fresh.call ⟨.factorial, ⟨3, some 16⟩⟩ ⟨0⟩ [.int 3]).1 = .ok (.int 6) := by
    decide +kernel
  obtain ⟨-, hover, -⟩ := depth_limit_truncates .factorial (some 16) (show 2 < 3 by decide) ⟨0⟩ [.int 3]
    (s := fresh) rfl
  obtain ⟨hsame, -, -⟩ := depth_limit_truncates .factorial (some 16) (show 3 < 4 by decide) ⟨0⟩ [.int 3]
    (s := fresh) rfl
  obtain ⟨c, s', hduring, hdeep, -⟩ := hover.1 htwo
  refine ⟨rfl, by decide, by decide, htwo, ⟨c, s', hduring, hdeep⟩, ?_⟩
  rw [hsame (by rw [hthree]; simp), hthree]

end Settings

end BlockIR.Machine
