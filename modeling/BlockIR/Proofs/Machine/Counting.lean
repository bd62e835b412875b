import BlockIR.Proofs.Machine.Refinement
import BlockIR.Proofs.Machine.Reach

/-!
# What a run counts and records

Each step of a run that goes on counts one, and records the code that it carries out. So the count at a point
says how many steps lead to it, and a run that is given more steps than it needs ends as before.
-/

namespace BlockIR

/-- A piece of code and the block in which it stands. -/
abbrev CodeInBlock := BlockId × (Action ⊕ Transfer)

/-- The code that an event says is carried out. -/
def Event.code? : Event → Option CodeInBlock
  | executing name code => some (name, code)
  | _ => none

/-- How a run ends with a step, if it does. -/
def Progress.stop? : Progress → Option (Outcome × Machine)
  | running _ _ => none
  | returned v s => some (.returned v, s)
  | failed e s => some (.failed e, s)

namespace Machine

/-- The recorded code, in the order in which it was carried out. -/
def executed (s : Machine) : List CodeInBlock := s.events.filterMap Event.code?

/-- From one machine to a later one this code is counted, and recorded if events are. -/
structure CarriesOut (s s' : Machine) (code : List CodeInBlock) : Prop where
  steps : s'.steps = s.steps + code.length
  log : s'.log.isSome = s.log.isSome
  executed : s.log.isSome → s'.executed = s.executed ++ code

section Steps

variable {x : Setting} {base : Nat} {s s' s₁ s₂ : Machine} {code code' : List CodeInBlock}

lemma CarriesOut.refl (s : Machine) : s.CarriesOut s [] := ⟨rfl, rfl, fun _ => (List.append_nil _).symm⟩

lemma CarriesOut.trans (h : s.CarriesOut s₁ code) (h' : s₁.CarriesOut s₂ code') :
    s.CarriesOut s₂ (code ++ code') := by
  refine ⟨?_, h'.log.trans h.log, fun hlog => ?_⟩
  · rw [h'.steps, h.steps, List.length_append, Nat.add_assoc]
  · rw [h'.executed (h.log.trans hlog), h.executed hlog, List.append_assoc]

lemma CarriesOut.of_eq (h : s.CarriesOut s₁ code) (hsteps : s₂.steps = s₁.steps) (hlog : s₂.log = s₁.log) :
    s.CarriesOut s₂ code := by
  refine ⟨hsteps.trans h.steps, (congrArg _ hlog).trans h.log, fun hs => ?_⟩
  rw [← h.executed hs]
  simp only [Machine.executed, events, hlog]

lemma isSome_log_record (e : Event) (s : Machine) : (s.record e).log.isSome = s.log.isSome :=
  Option.isSome_map

lemma events_record (h : s.log.isSome) (e : Event) : (s.record e).events = s.events ++ [e] := by
  obtain ⟨log, hlog⟩ := Option.isSome_iff_exists.1 h
  simp only [events, record, hlog, Option.map_some, Option.getD_some, List.reverse_cons]

lemma executed_record (h : s.log.isSome) (e : Event) :
    (s.record e).executed = s.executed ++ e.code?.toList := by
  rw [executed, events_record h, List.filterMap_append]
  cases hcode : e.code? <;> simp [executed, hcode]

lemma CarriesOut.record (h : s.CarriesOut s' code) {e : Event} (he : e.code? = none) :
    s.CarriesOut (s'.record e) code := by
  refine ⟨h.steps, (isSome_log_record e s').trans h.log, fun hlog => ?_⟩
  rw [executed_record (h.log.trans hlog), he, Option.toList_none, List.append_nil, h.executed hlog]

lemma carriesOut_counted (s : Machine) (name : BlockId) (code : Action ⊕ Transfer) :
    s.CarriesOut (s.counted name code) [(name, code)] :=
  ⟨rfl, isSome_log_record _ _, fun hlog => executed_record (s := { s with steps := s.steps + 1 }) hlog _⟩

lemma CarriesOut.enter (h : s.CarriesOut s' code) (fr : Frame) (args : List Value) :
    s.CarriesOut (s'.enter x fr args) code := by
  have hpushed : s.CarriesOut
      { s' with calls := s'.calls.push fr, values := s'.values ++ fr.initialSlots args } code := h.of_eq rfl rfl
  exact hpushed.record (e := .pushed _ _ _) rfl

lemma CarriesOut.leave (h : s.CarriesOut s' code) (fr : Frame) : s.CarriesOut (s'.leave x fr) code := by
  have hpopped : s.CarriesOut { s' with calls := s'.calls.pop, values := s'.values.shrink fr.offset } code :=
    h.of_eq rfl rfl
  exact hpopped.record (e := .popped _ _) rfl

/-- What a step counts and records: the code that it carries out, if there is any and the limit allows it. -/
inductive Count (x : Setting) (s : Machine) (c : Control) : Progress → Prop
  | running {c' : Control} {s' : Machine} {k : CodeInBlock} (hcode : s.pending? x c = some k.2)
      (hallowed : x.config.exceeded? (s.steps + 1) = none) (h : s.CarriesOut s' [k]) :
      Count x s c (.running c' s')
  | returned {v : Value} {s' : Machine} {k : CodeInBlock} (hcode : s.pending? x c = some k.2)
      (hallowed : x.config.exceeded? (s.steps + 1) = none) (h : s.CarriesOut s' [k]) :
      Count x s c (.returned v s')
  | failed {e : Fault} {s' : Machine} {k : CodeInBlock} (hcode : s.pending? x c = some k.2)
      (hallowed : x.config.exceeded? (s.steps + 1) = none) (h : s.CarriesOut s' [k]) :
      Count x s c (.failed e s')
  | lost {e : Fault} (hcode : s.pending? x c = none) : Count x s c (.failed e s)
  | cut {limit : Nat} {code : Action ⊕ Transfer} (hcode : s.pending? x c = some code)
      (h : x.config.exceeded? (s.steps + 1) = some limit) :
      Count x s c (.failed (.stepLimit limit) { s with steps := s.steps + 1 })

lemma count_apply {c : Control} {k : CodeInBlock} (hcode : s.pending? x c = some k.2)
    (hallowed : x.config.exceeded? (s.steps + 1) = none) (h : s.CarriesOut s' [k]) (m : Move) :
    Count x s c (s'.apply x base m) := by
  cases m with
  | jump b => exact .running hcode hallowed (h.of_eq rfl rfl)
  | enter fr args => exact .running hcode hallowed (h.enter fr args)
  | leave v =>
    unfold apply return_
    dsimp only
    split
    · exact .failed hcode hallowed h
    · next fr _ =>
      have hleave : s.CarriesOut (s'.leave x fr) [k] := h.leave fr
      split
      · split
        · exact .running hcode hallowed (hleave.of_eq rfl rfl)
        · exact .returned hcode hallowed hleave
      · exact .returned hcode hallowed hleave

lemma count_within (base : Nat) {c : Control} {rest : List Statement} {t : Terminator}
    (hcode : s.pending? x c = some (frontCode rest t)) (name : BlockId) :
    Count x s c (s.step x base (.within name rest t)) := by
  cases hlimit : x.config.exceeded? (s.steps + 1) with
  | some limit =>
    rw [step_of_exceeded hlimit]
    exact .cut hcode hlimit
  | none =>
    cases rest with
    | cons st rest =>
      have hcounted := s.carriesOut_counted name (.inl st.action)
      rw [step_cons hlimit]
      split
      · exact .failed hcode hlimit hcounted
      · exact .running hcode hlimit hcounted
      · exact .running hcode hlimit (hcounted.of_eq rfl rfl)
    | nil =>
      have hcounted := s.carriesOut_counted name (.inr t.transfer)
      rw [step_nil hlimit]
      split
      · exact .failed hcode hlimit hcounted
      · exact count_apply hcode hlimit hcounted _

lemma step_start_of_ok {name : BlockId} {k : Block} (h : s.currentBlock x = .ok (name, k)) :
    s.step x base .start = s.step x base (.within name k.statements k.terminator) := by
  unfold step
  simp only [h]

lemma step_start_of_error {e : Fault} (h : s.currentBlock x = .error e) :
    s.step x base .start = .failed e s := by
  unfold step
  simp only [h]

/-- Every step counts in one of these ways. -/
lemma count_step (x : Setting) (base : Nat) (c : Control) (s : Machine) : Count x s c (s.step x base c) := by
  cases c with
  | within name rest t => exact count_within base rfl name
  | start =>
    cases hblock : s.currentBlock x with
    | error e =>
      rw [step_start_of_error hblock]
      exact .lost (by rw [pending?, hblock]; rfl)
    | ok b =>
      rw [step_start_of_ok hblock]
      exact count_within base (by rw [pending?, hblock]; rfl) b.1

lemma carriesOut_of_step_running {c c' : Control} (h : s.step x base c = .running c' s') :
    x.config.exceeded? (s.steps + 1) = none ∧ ∃ k, s.CarriesOut s' [k] := by
  have hcount := count_step x base c s
  rw [h] at hcount
  cases hcount with
  | running _ hallowed hcarries => exact ⟨hallowed, _, hcarries⟩

lemma steps_of_step_running {c c' : Control} (h : s.step x base c = .running c' s') :
    s'.steps = s.steps + 1 := by
  obtain ⟨-, k, hk⟩ := carriesOut_of_step_running h
  exact hk.steps

end Steps

section Runs

variable {x : Setting} {base : Nat} {c c' : Control} {s s' : Machine}

lemma Reaches.carriesOut (h : Reaches x base c s c' s') : ∃ code, s.CarriesOut s' code := by
  induction h with
  | refl => exact ⟨[], .refl _⟩
  | tail _ hstep ih =>
    obtain ⟨code, hcode⟩ := ih
    obtain ⟨-, k, hk⟩ := carriesOut_of_step_running hstep
    exact ⟨code ++ [k], hcode.trans hk⟩

lemma Reaches.steps_le (h : Reaches x base c s c' s') : s.steps ≤ s'.steps := by
  obtain ⟨code, hcode⟩ := h.carriesOut
  rw [hcode.steps]
  exact Nat.le_add_right _ _

/-- A run comes to a point with as many steps as are counted up to there. -/
lemma Reaches.run_eq (h : Reaches x base c s c' s') (fuel : Nat) :
    run x base (s'.steps - s.steps + fuel) c s = run x base fuel c' s' := by
  induction h generalizing fuel with
  | refl => rw [Nat.sub_self, Nat.zero_add]
  | @tail c₁ c₂ s s₁ s₂ hreach hstep ih =>
    have hle := hreach.steps_le
    have hsteps : s₂.steps - s.steps + fuel = s₁.steps - s.steps + (fuel + 1) := by
      rw [steps_of_step_running hstep]
      omega
    rw [hsteps, ih, run_succ, hstep]
    rfl

lemma Reaches.run_of_stop (h : Reaches x base c s c' s') {r : Outcome × Machine}
    (hstop : (s'.step x base c').stop? = some r) {fuel : Nat} (hfuel : s'.steps < s.steps + fuel) :
    run x base fuel c s = r := by
  have hle := h.steps_le
  obtain ⟨n, rfl⟩ : ∃ n, fuel = s'.steps - s.steps + (n + 1) := ⟨fuel - (s'.steps - s.steps) - 1, by omega⟩
  rw [h.run_eq, run_succ]
  cases hstep : s'.step x base c' with
  | running c₁ s₁ =>
    rw [hstep] at hstop
    cases hstop
  | returned v s₁ =>
    rw [hstep] at hstop
    exact Option.some.inj hstop
  | failed e s₁ =>
    rw [hstep] at hstop
    exact Option.some.inj hstop

lemma exists_reaches_of_run_unfinished {fuel : Nat} (h : run x base fuel c s = (.unfinished, s')) :
    s'.steps = s.steps + fuel ∧ ∃ c', Reaches x base c s c' s' := by
  induction fuel generalizing c s with
  | zero =>
    cases h
    exact ⟨rfl, c, .refl c _⟩
  | succ fuel ih =>
    rw [run_succ] at h
    cases hstep : s.step x base c with
    | running c₁ s₁ =>
      rw [hstep] at h
      obtain ⟨hsteps, c', hreach⟩ := ih h
      rw [steps_of_step_running hstep] at hsteps
      exact ⟨by omega, c', hreach.head hstep⟩
    | returned v s₁ =>
      rw [hstep] at h
      cases h
    | failed e s₁ =>
      rw [hstep] at h
      cases h

lemma exists_stop_of_run {fuel : Nat} {o : Outcome} (h : run x base fuel c s = (o, s'))
    (ho : o ≠ .unfinished) : ∃ c₁ s₁, Reaches x base c s c₁ s₁ ∧ s₁.steps < s.steps + fuel ∧
      (s₁.step x base c₁).stop? = some (o, s') := by
  induction fuel generalizing c s with
  | zero =>
    cases h
    exact absurd rfl ho
  | succ fuel ih =>
    rw [run_succ] at h
    cases hstep : s.step x base c with
    | running c₁ s₁ =>
      rw [hstep] at h
      obtain ⟨c₂, s₂, hreach, hlt, hstop⟩ := ih h
      rw [steps_of_step_running hstep] at hlt
      exact ⟨c₂, s₂, hreach.head hstep, by omega, hstop⟩
    | returned v s₁ =>
      rw [hstep] at h
      exact ⟨c, s, .refl c s, by omega, by rw [hstep]; exact congrArg some h⟩
    | failed e s₁ =>
      rw [hstep] at h
      exact ⟨c, s, .refl c s, by omega, by rw [hstep]; exact congrArg some h⟩

end Runs

/-- What a call makes of the end of its run: unless it returned, its frames and their slots are removed. -/
def unwind (depth size : Nat) (r : Outcome × Machine) : Outcome × Machine :=
  (r.1, match r.1 with
    | .returned _ => r.2
    | _ => r.2.truncate depth size)

/-- A call comes to an end, in whatever number of steps. -/
def Completes (x : Setting) (f : FuncId) (args : List Value) (s : Machine) (o : Outcome) (s' : Machine) : Prop :=
  o ≠ .unfinished ∧ ∃ fuel, s.callFor x fuel f args = (o, s')

section Calls

variable {x : Setting} {f : FuncId} {args : List Value} {s s' : Machine}

lemma unwind_steps (depth size : Nat) (r : Outcome × Machine) : (unwind depth size r).2.steps = r.2.steps := by
  unfold unwind
  split <;> rfl

lemma unwind_log (depth size : Nat) (r : Outcome × Machine) : (unwind depth size r).2.log = r.2.log := by
  unfold unwind
  split <;> rfl

lemma call_eq (x : Setting) (f : FuncId) (args : List Value) (s : Machine) :
    s.call x f args =
      (resultOf (s.callFor x x.config.fuel f args).1, (s.callFor x x.config.fuel f args).2) := by
  unfold call
  rcases s.callFor x x.config.fuel f args with ⟨_ | _ | _, s'⟩ <;> rfl

lemma call_of_callFor {o : Outcome} (h : s.callFor x x.config.fuel f args = (o, s')) :
    s.call x f args = (resultOf o, s') := by
  rw [call_eq, h]

lemma beginCall_steps (hs : s.depth = 0) : s.beginCall.steps = 0 := by
  rw [beginCall, if_pos hs]

lemma callFor_of_refused {e : Fault} (h : s.beginCall.newFrame x f args none = .error e) (fuel : Nat) :
    s.callFor x fuel f args = (.failed e, s.beginCall) := by
  unfold callFor
  simp only [h]

lemma callFor_of_entered {fr : Frame} (h : s.beginCall.newFrame x f args none = .ok fr) (fuel : Nat) :
    s.callFor x fuel f args =
      unwind s.depth s.values.size (run x s.depth fuel .start (s.beginCall.enter x fr args)) := by
  unfold callFor
  simp only [h]
  rcases run x s.depth fuel .start (s.beginCall.enter x fr args) with ⟨_ | _ | _, s'⟩ <;> rfl

lemma During.callFor_of_stop {c : Control} {s₁ : Machine} (h : s.During x f args c s₁)
    {r : Outcome × Machine} (hstop : (s₁.step x s.depth c).stop? = some r) {fuel : Nat}
    (hfuel : s₁.steps < s.beginCall.steps + fuel) :
    s.callFor x fuel f args = unwind s.depth s.values.size r := by
  obtain ⟨fr, hnew, hreach⟩ := h
  rw [callFor_of_entered hnew, hreach.run_of_stop hstop hfuel]

lemma exists_stop_of_callFor {fr : Frame} (hnew : s.beginCall.newFrame x f args none = .ok fr) {fuel : Nat}
    {o : Outcome} (h : s.callFor x fuel f args = (o, s')) (ho : o ≠ .unfinished) :
    ∃ c₁ s₁ s₂, s.During x f args c₁ s₁ ∧ s₁.steps < s.beginCall.steps + fuel ∧
      (s₁.step x s.depth c₁).stop? = some (o, s₂) ∧ s' = (unwind s.depth s.values.size (o, s₂)).2 := by
  rw [callFor_of_entered hnew] at h
  rcases hrun : run x s.depth fuel .start (s.beginCall.enter x fr args) with ⟨o₁, s₂⟩
  rw [hrun] at h
  obtain rfl : o₁ = o := congrArg Prod.fst h
  obtain ⟨c₁, s₁, hreach, hlt, hstop⟩ := exists_stop_of_run hrun ho
  exact ⟨c₁, s₁, s₂, ⟨fr, hnew, hreach⟩, hlt, hstop, (congrArg Prod.snd h).symm⟩

lemma callFor_mono {fuel fuel' : Nat} (hle : fuel ≤ fuel') {o : Outcome}
    (h : s.callFor x fuel f args = (o, s')) (ho : o ≠ .unfinished) : s.callFor x fuel' f args = (o, s') := by
  cases hnew : s.beginCall.newFrame x f args none with
  | error e =>
    rw [callFor_of_refused hnew] at h ⊢
    exact h
  | ok fr =>
    obtain ⟨c₁, s₁, s₂, hduring, hlt, hstop, rfl⟩ := exists_stop_of_callFor hnew h ho
    rw [hduring.callFor_of_stop hstop (by omega)]
    rfl

lemma Completes.unique {o o' : Outcome} {s₁ s₂ : Machine} (h : s.Completes x f args o s₁)
    (h' : s.Completes x f args o' s₂) : o = o' ∧ s₁ = s₂ := by
  obtain ⟨ho, fuel, h⟩ := h
  obtain ⟨ho', fuel', h'⟩ := h'
  have hmax := callFor_mono (Nat.le_max_left fuel fuel') h ho
  rw [callFor_mono (Nat.le_max_right fuel fuel') h' ho'] at hmax
  exact Prod.mk.inj hmax.symm

lemma callFor_ne_unfinished {limit : Nat} (hlimit : x.config.stepLimit = some limit) :
    (s.callFor x (limit + 1) f args).1 ≠ .unfinished := by
  intro h
  cases hnew : s.beginCall.newFrame x f args none with
  | error e =>
    rw [callFor_of_refused hnew] at h
    cases h
  | ok fr =>
    rw [callFor_of_entered hnew] at h
    rcases hrun : run x s.depth (limit + 1) .start (s.beginCall.enter x fr args) with ⟨o, s₁⟩
    rw [hrun] at h
    obtain rfl : o = .unfinished := h
    obtain ⟨hsteps, c, hreach⟩ := exists_reaches_of_run_unfinished hrun
    cases hreach with
    | refl => omega
    | tail hreach hstep =>
      have hle := Config.exceeded?_eq_none_iff.1 (carriesOut_of_step_running hstep).1 limit hlimit
      rw [steps_of_step_running hstep] at hsteps
      omega

/-- With a step limit, a call comes to the end that `call` reports. -/
lemma completes_call {limit : Nat} (hlimit : x.config.stepLimit = some limit) :
    ∃ o, s.Completes x f args o (s.call x f args).2 ∧ (s.call x f args).1 = resultOf o := by
  have hfuel : x.config.fuel = limit + 1 := by simp only [Config.fuel, hlimit]
  refine ⟨(s.callFor x (limit + 1) f args).1, ⟨callFor_ne_unfinished hlimit, limit + 1, ?_⟩, ?_⟩
  · rw [call_eq, hfuel]
  · rw [call_eq, hfuel]

end Calls

end Machine

end BlockIR
