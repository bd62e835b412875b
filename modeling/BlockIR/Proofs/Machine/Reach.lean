import BlockIR.Proofs.Machine.Frames

/-!
# The points of a run

A run goes through points, each a control and a machine. What every step keeps holds at every point.
-/

namespace BlockIR.Machine

/-- A run that is at one point comes to another. -/
inductive Reaches (x : Setting) (base : Nat) : Control → Machine → Control → Machine → Prop
  | refl (c : Control) (s : Machine) : Reaches x base c s c s
  | tail {c c₁ c₂ : Control} {s s₁ s₂ : Machine} :
    Reaches x base c s c₁ s₁ → s₁.step x base c₁ = .running c₂ s₂ → Reaches x base c s c₂ s₂

/-- A call of a function comes to a point. -/
def During (x : Setting) (f : FuncId) (args : List Value) (s : Machine) (c : Control) (s' : Machine) :
    Prop :=
  ∃ fr, s.beginCall.newFrame x f args none = .ok fr ∧
    Reaches x s.depth .start (s.beginCall.enter x fr args) c s'

/-- The code in front of these statements and this terminator. -/
def frontCode : List Statement → Terminator → Action ⊕ Transfer
  | st :: _, _ => .inl st.action
  | [], t => .inr t.transfer

/-- The code that the next step carries out. -/
def pending? (x : Setting) (s : Machine) : Control → Option (Action ⊕ Transfer)
  | .start => (s.currentBlock x).toOption.map fun b => frontCode b.2.statements b.2.terminator
  | .within _ rest t => some (frontCode rest t)

variable {x : Setting} {base : Nat}

lemma Reaches.trans {c c₁ c₂ : Control} {s s₁ s₂ : Machine} (h : Reaches x base c s c₁ s₁)
    (h' : Reaches x base c₁ s₁ c₂ s₂) : Reaches x base c s c₂ s₂ := by
  induction h' with
  | refl => exact h
  | tail _ hstep ih => exact (ih h).tail hstep

lemma Reaches.head {c c₁ c₂ : Control} {s s₁ s₂ : Machine} (hstep : s.step x base c = .running c₁ s₁)
    (h : Reaches x base c₁ s₁ c₂ s₂) : Reaches x base c s c₂ s₂ :=
  (Reaches.tail (.refl c s) hstep).trans h

/-- A run that fails does so in a step from one of its points. -/
lemma exists_step_of_run_failed {fuel : Nat} {c : Control} {s s' : Machine} {e : Fault}
    (h : run x base fuel c s = (.failed e, s')) :
    ∃ c₁ s₁, Reaches x base c s c₁ s₁ ∧ s₁.step x base c₁ = .failed e s' := by
  induction fuel generalizing c s with
  | zero => cases h
  | succ fuel ih =>
    unfold run at h
    cases hstep : s.step x base c with
    | running c₂ s₂ =>
      rw [hstep] at h
      obtain ⟨c₁, s₁, hreach, hfail⟩ := ih h
      exact ⟨c₁, s₁, hreach.head hstep, hfail⟩
    | returned v s₂ =>
      rw [hstep] at h
      cases h
    | failed f s₂ =>
      rw [hstep] at h
      cases h
      exact ⟨c, s, .refl c s, hstep⟩

lemma refused_or_failed_of_callFor {fuel : Nat} {f : FuncId} {args : List Value} {s : Machine} {e : Fault}
    (h : (s.callFor x fuel f args).1 = .failed e) :
    s.beginCall.newFrame x f args none = .error e ∨
      ∃ c s₁ s₂, s.During x f args c s₁ ∧ s₁.step x s.depth c = .failed e s₂ := by
  unfold callFor at h
  simp only at h
  cases hnew : s.beginCall.newFrame x f args none with
  | error fault =>
    rw [hnew] at h
    cases h
    exact .inl rfl
  | ok fr =>
    rw [hnew] at h
    simp only at h
    rcases hrun : run x s.depth fuel .start (s.beginCall.enter x fr args) with ⟨_ | f | _, s'⟩
    · rw [hrun] at h
      cases h
    · rw [hrun] at h
      cases h
      obtain ⟨c₁, s₁, hreach, hfail⟩ := exists_step_of_run_failed hrun
      exact .inr ⟨c₁, s₁, s', ⟨fr, hnew, hreach⟩, hfail⟩
    · rw [hrun] at h
      cases h

end BlockIR.Machine
