import BlockIR.Proofs.Machine.Raise
import BlockIR.Proofs.Machine.Callers
import BlockIR.StartPoint

/-!
# Calls forget the past

What a machine did before a call does not show in the result of the call. Without frames nothing is left of
it at all, so one machine can serve any number of requests, and all start points.
-/

namespace BlockIR

/-- What is asked of a machine: to call a function, or the function of a name. -/
inductive Request
  | call (f : FuncId) (args : List Value)
  | callNamed (name : String) (args : List Value)

namespace Machine

/-- The answer to a request, and the machine after it. -/
def answer (x : Setting) (s : Machine) : Request → Except Fault Value × Machine
  | .call f args => s.call x f args
  | .callNamed name args => s.callNamed x name args

/-- The answers that one machine gives to requests, each with the machine after it. -/
def answers (x : Setting) : List Request → Machine → List (Except Fault Value × Machine)
  | [], _ => []
  | r :: rs, s => s.answer x r :: answers x rs (s.answer x r).2

/-- Runs a start point on a machine that is used again after it. -/
def runStartPoint (x : Setting) (f : FuncId) (name : String) (a : Attribute) (s : Machine) :
    StartPoint × Machine :=
  match s.call x f [] with
  | (.ok v, s') => (⟨name, .ofValue v (a.value? Attribute.expected)⟩, s')
  | (.error fault, s') => (⟨name, .errored fault⟩, s')

/-- Runs start points in order on one machine. -/
def runStartPoints (x : Setting) : List (FuncId × String × Attribute) → Machine → List StartPoint
  | [], _ => []
  | (f, name, a) :: rest, s =>
    (s.runStartPoint x f name a).1 :: runStartPoints x rest (s.runStartPoint x f name a).2

/-- An answer to a request is the one of a new machine, and so are the steps if the request is a call. -/
structure AsFresh (x : Setting) (r : Request) (a : Except Fault Value × Machine) : Prop where
  result : a.1 = (fresh.answer x r).1
  steps : ∀ f args, r = .call f args → a.2.steps = (fresh.call x f args).2.steps

section Requests

variable {x : Setting} {s : Machine}

lemma answer_depth (x : Setting) (r : Request) (s : Machine) : (s.answer x r).2.depth = s.depth := by
  cases r with
  | call f args => exact (sameStacks_call x f args s).depth
  | callNamed name args => exact (sameStacks_callNamed x name args s).depth

lemma answer_asFresh (hs : s.depth = 0) (r : Request) : AsFresh x r (s.answer x r) := by
  cases r with
  | call f args =>
    refine ⟨(call_fresh x f args s hs).1, fun f' args' hr => ?_⟩
    obtain ⟨rfl, rfl⟩ := Request.call.inj hr
    exact (call_fresh x f args s hs).2
  | callNamed name args =>
    refine ⟨?_, fun f' args' hr => Request.noConfusion hr⟩
    simp only [answer, callNamed]
    cases x.module.find? name with
    | none => rfl
    | some f => exact (call_fresh x f args s hs).1

/-- Every answer of a machine without frames is the one of a new machine. -/
lemma answers_asFresh (hs : s.depth = 0) (rs : List Request) :
    List.Forall₂ (AsFresh x) rs (answers x rs s) := by
  induction rs generalizing s with
  | nil => exact .nil
  | cons r rs ih => exact .cons (answer_asFresh hs r) (ih ((answer_depth x r s).trans hs))

lemma runStartPoint_fst (hs : s.depth = 0) (f : FuncId) (name : String) (a : Attribute) :
    (s.runStartPoint x f name a).1 = (StartPoint.run x false f name a).1 := by
  have hresult := (call_fresh x f [] s hs).1
  unfold runStartPoint StartPoint.run
  rw [if_neg Bool.false_ne_true]
  generalize s.call x f [] = a at hresult
  generalize fresh.call x f [] = b at hresult
  obtain ⟨r, s₁⟩ := a
  obtain ⟨r', s₂⟩ := b
  obtain rfl : r = r' := hresult
  cases r <;> rfl

lemma runStartPoint_depth (x : Setting) (f : FuncId) (name : String) (a : Attribute) (s : Machine) :
    (s.runStartPoint x f name a).2.depth = s.depth := by
  rw [← (sameStacks_call x f [] s).depth]
  unfold runStartPoint
  rcases s.call x f [] with ⟨_ | _, s₁⟩ <;> rfl

lemma runStartPoints_eq (hs : s.depth = 0) (points : List (FuncId × String × Attribute)) :
    runStartPoints x points s =
      points.map fun (f, name, a) => (StartPoint.run x false f name a).1 := by
  induction points generalizing s with
  | nil => rfl
  | cons point points ih =>
    obtain ⟨f, name, a⟩ := point
    have hs' := (runStartPoint_depth x f name a s).trans hs
    rw [runStartPoints, runStartPoint_fst hs, ih hs', List.map_cons]

end Requests

/-- The result of a call does not depend on what the machine did before: it is the one on a new machine with
the limits that are left, except that a fault of a limit shows the whole limit. On a machine without frames,
each of any number of requests is answered as by a new machine, and each call takes the same steps; so start
points that share one machine give the same report. -/
theorem call_forgets_history (x : Setting) (s : Machine) :
    (∀ f args, (s.call x f args).1 =
      (fresh.call (s.remaining x) f args).1.mapError (Fault.renumber x.config)) ∧
    (s.depth = 0 →
      (∀ rs, List.Forall₂ (AsFresh x) rs (answers x rs s)) ∧
      runStartPoints x x.module.startPoints s = x.module.report x.config) := by
  refine ⟨fun f args => (call_raised x f args s).1, fun hs => ⟨answers_asFresh hs, ?_⟩⟩
  rw [runStartPoints_eq hs, Module.report, Module.runStartPoints, List.map_map]
  rfl

/-- Above a frame that was pushed by hand, a depth limit of three leaves two frames, which are too few for the
factorial of three. After that failure, and without the frame, the machine is as good as new. -/
theorem factorial_after_failure :
    let x : Setting := ⟨.factorial, ⟨3, some 16⟩⟩
    ∃ s, fresh.push x ⟨0⟩ [.int 3] none = .ok s ∧
      (fresh.call (s.remaining x) ⟨0⟩ [.int 3]).1 = .error (.stackOverflow 2) ∧
      (s.call x ⟨0⟩ [.int 3]).1 = .error (.stackOverflow 3) ∧
      ∃ s', ((s.call x ⟨0⟩ [.int 3]).2.tryPop x).2 = s' ∧ s'.depth = 0 ∧
        List.Forall₂ (AsFresh x) [.call ⟨0⟩ [], .callNamed "factorial" [.int 3]]
          (answers x [.call ⟨0⟩ [], .callNamed "factorial" [.int 3]] s') := by
  intro x
  obtain ⟨s, hs⟩ : ∃ s, fresh.push x ⟨0⟩ [.int 3] none = .ok s := ⟨_, rfl⟩
  cases hs
  have hfresh : ∀ s, fresh.push x ⟨0⟩ [.int 3] none = .ok s →
      (fresh.call (s.remaining x) ⟨0⟩ [.int 3]).1 = .error (.stackOverflow 2) := by
    rintro s ⟨⟩
    decide +kernel
  obtain ⟨hresult, -⟩ := call_forgets_history x _
  refine ⟨_, rfl, hfresh _ rfl, ?_, _, rfl, ?_, ?_⟩
  · rw [hresult, hfresh _ rfl]
    rfl
  · decide +kernel
  · exact ((call_forgets_history x _).2 (by decide +kernel)).1 _

end Machine

end BlockIR
