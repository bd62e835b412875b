import BlockIR.Proofs.Violations
import BlockIR.Proofs.Machine.Limits
import Mathlib.Data.Set.Basic

/-!
# Runs keep to the functions that they can reach

A run comes to the functions that it is given and to those that are named in their code. Function values go
from slot to slot, but a run makes no new ones. So it does not matter what the other functions are.
-/

namespace BlockIR

variable {S : Set FuncId}

/-- The functions that are named in the code of these functions are among them. -/
def Module.Closed (S : Set FuncId) (m : Module) : Prop :=
  ∀ f ∈ S, ∀ function ∈ m.get? f, ∀ k ∈ function.body.blocks.toList, ∀ g ∈ k.items, g ∈ S

/-- Two modules hold the same under these keys. -/
def Module.AgreeOn (S : Set FuncId) (m m' : Module) : Prop := ∀ f ∈ S, m.get? f = m'.get? f

/-- A function value is one of these functions. -/
def Value.Confined (S : Set FuncId) : Value → Prop
  | func g => g ∈ S
  | _ => True

/-- The code that is left of a block names only these functions. -/
def Control.Confined (S : Set FuncId) : Control → Prop
  | start => True
  | within _ rest t => (∀ st ∈ rest, ∀ g ∈ st.action.items, g ∈ S) ∧ ∀ g ∈ t.transfer.items, g ∈ S

/-- All frames are of these functions, and no slot holds another one. -/
structure Machine.Confined (S : Set FuncId) (s : Machine) : Prop where
  frames : ∀ fr ∈ s.calls.frames, fr.func ∈ S
  values : ∀ v ∈ s.values.toList, v.Confined S

def Move.Confined (S : Set FuncId) : Move → Prop
  | jump _ => True
  | enter fr args => fr.func ∈ S ∧ ∀ v ∈ args, v.Confined S
  | leave v => v.Confined S

def Progress.Confined (S : Set FuncId) : Progress → Prop
  | running c s => c.Confined S ∧ s.Confined S
  | returned v s => v.Confined S ∧ s.Confined S
  | failed _ s => s.Confined S

lemma Computed.confined {r : Except Fault Value} (h : Computed r) {v : Value} (hv : r = .ok v) :
    v.Confined S := by
  cases h <;> cases hv <;> trivial

lemma Module.Closed.block {m : Module} (h : m.Closed S) {f : FuncId} (hf : f ∈ S) {function : Function}
    (hfunction : m.get? f = some function) {id : BlockId} {k : Block}
    (hk : function.body.blocks.get? id = some k) :
    Control.Confined S (.within id k.statements k.terminator) := by
  rw [Arena.get?_eq_getElem?_toList] at hk
  have hitems := h f hf function hfunction k (List.mem_of_getElem? hk)
  refine ⟨fun st hst g hg => hitems g ?_, fun g hg => hitems g (List.mem_append_right _ hg)⟩
  exact List.mem_append_left _ (List.mem_flatMap.2 ⟨st, hst, hg⟩)

namespace Machine

lemma confined_fresh : fresh.Confined S := by
  constructor <;> simp [fresh, CallStack.empty]

section Frames

variable {m m' : Module} {s : Machine} {f : FuncId} {args : List Value} {returnTo : Option (Nat × BlockId)}

lemma newFrame_congr (hagree : m.AgreeOn S m') (c : Config) (hf : f ∈ S) :
    s.newFrame ⟨m, c⟩ f args returnTo = s.newFrame ⟨m', c⟩ f args returnTo := by
  simp only [newFrame, hagree f hf]

lemma enter_congr (hagree : m.AgreeOn S m') (c : Config) {fr : Frame} (hfr : fr.func ∈ S) :
    s.enter ⟨m, c⟩ fr args = s.enter ⟨m', c⟩ fr args := by
  simp only [enter, nameOf, hagree fr.func hfr]

lemma func_of_newFrame {x : Setting} {fr : Frame} (h : s.newFrame x f args returnTo = .ok fr) :
    fr.func = f := by
  obtain ⟨function, -, -, -, rfl⟩ := newFrame_eq_ok h
  rfl

end Frames

namespace Confined

variable {s : Machine}

lemma of_sameStacks {s' : Machine} (h : s.Confined S) (hs : SameStacks s s') : s'.Confined S :=
  ⟨hs.calls ▸ h.frames, hs.values ▸ h.values⟩

lemma readSlot (h : s.Confined S) (i : Nat) : (s.readSlot i).Confined S := by
  rw [Machine.readSlot, Array.getD_eq_getD_getElem?, ← Array.getElem?_toList]
  cases hv : s.values.toList[i]? with
  | none => trivial
  | some v => exact h.values v (List.mem_of_getElem? hv)

lemma writeSlot (h : s.Confined S) (i : Nat) {v : Value} (hv : v.Confined S) :
    (s.writeSlot i v).Confined S := by
  refine ⟨h.frames, fun w hw => ?_⟩
  rw [writeSlot_values, Array.toList_setIfInBounds] at hw
  rcases List.mem_or_eq_of_mem_set hw with hw | rfl
  · exact h.values w hw
  · exact hv

lemma jump (h : s.Confined S) (b : BlockId) : (s.jump b).Confined S := by
  refine ⟨fun fr hfr => ?_, h.values⟩
  rw [jump_calls] at hfr
  cases hframes : s.calls.frames with
  | nil =>
    have hempty : s.calls = .empty := CallStack.ext_frames hframes
    rw [hempty] at hfr
    cases hfr
  | cons top callers =>
    have hall := h.frames
    rw [hframes] at hall
    rw [CallStack.frames_jump b hframes] at hfr
    rcases List.mem_cons.1 hfr with rfl | hfr
    · exact hall top List.mem_cons_self
    · exact hall fr (List.mem_cons_of_mem top hfr)

lemma enter (h : s.Confined S) (x : Setting) {fr : Frame} (hfr : fr.func ∈ S) {args : List Value}
    (hargs : ∀ v ∈ args, v.Confined S) : (s.enter x fr args).Confined S := by
  refine ⟨List.forall_mem_cons.2 ⟨hfr, h.frames⟩, fun v hv => ?_⟩
  rw [enter_values, Array.toList_appendList] at hv
  rcases List.mem_append.1 hv with hv | hv
  · exact h.values v hv
  · simp only [Frame.initialSlots, List.mem_cons, List.mem_append, List.mem_replicate] at hv
    rcases hv with (rfl | hv) | ⟨-, rfl⟩
    · trivial
    · exact hargs v hv
    · trivial

lemma leave (h : s.Confined S) (x : Setting) (fr : Frame) : (s.leave x fr).Confined S := by
  refine ⟨fun fr' hfr' => h.frames fr' (List.mem_of_mem_tail hfr'), fun v hv => h.values v ?_⟩
  rw [leave_values, Array.toList_shrink] at hv
  exact List.mem_of_mem_take hv

section Evaluation

lemma readPlace (h : s.Confined S) {p : Place} {v : Value} (hv : s.readPlace p = .ok v) : v.Confined S := by
  obtain ⟨i, -, hi⟩ := exists_of_bind_eq_ok hv
  cases hi
  exact h.readSlot i

lemma operand (h : s.Confined S) {o : Operand} (ho : ∀ g ∈ o.items, g ∈ S) {v : Value}
    (hv : s.operand o = .ok v) : v.Confined S := by
  cases o with
  | read p => exact h.readPlace hv
  | const c => exact c.computed_value.confined hv
  | func g =>
    cases hv
    exact ho g (List.mem_singleton_self g)

lemma operands (h : s.Confined S) {os : List Operand} (hos : ∀ g ∈ os.flatMap Operand.items, g ∈ S)
    {vs : List Value} (hvs : os.mapM s.operand = .ok vs) : ∀ v ∈ vs, v.Confined S := by
  refine forall_mem_of_mapM_eq_ok (fun o ho v hv => h.operand (fun g hg => hos g ?_) hv) hvs
  exact List.mem_flatMap.2 ⟨o, ho, hg⟩

lemma rvalue (h : s.Confined S) {r : Rvalue} (hr : ∀ g ∈ r.operands.flatMap Operand.items, g ∈ S)
    {v : Value} (hv : s.rvalue r = .ok v) : v.Confined S := by
  cases r with
  | use o => exact h.operand (fun g hg => hr g (List.mem_flatMap.2 ⟨o, List.mem_cons_self, hg⟩)) hv
  | binary op a b =>
    obtain ⟨v₁, -, hv⟩ := exists_of_bind_eq_ok hv
    obtain ⟨v₂, -, hv⟩ := exists_of_bind_eq_ok hv
    exact (op.computed_eval v₁ v₂).confined hv
  | unary op a =>
    obtain ⟨v₁, -, hv⟩ := exists_of_bind_eq_ok hv
    exact (op.computed_eval v₁).confined hv

lemma write? (h : s.Confined S) {a : Action} (ha : ∀ g ∈ a.items, g ∈ S) {i : Nat} {v : Value}
    (hw : s.write? a = .ok (some (i, v))) : v.Confined S := by
  cases a with
  | assign p r =>
    obtain ⟨j, -, hw⟩ := exists_of_bind_eq_ok hw
    obtain ⟨w, hv, hw⟩ := exists_of_bind_eq_ok hw
    cases hw
    exact h.rvalue ha hv
  | drop k p =>
    obtain ⟨-, -, hw⟩ := exists_of_bind_eq_ok hw
    cases hw

lemma called (h : s.Confined S) {p : Place} {callee : Operand} {args : List Operand}
    (hitems : ∀ g ∈ (callee :: args).flatMap Operand.items, g ∈ S) {c : Nat × FuncId × List Value}
    (hc : s.called p callee args = .ok c) : c.2.1 ∈ S ∧ ∀ v ∈ c.2.2, v.Confined S := by
  rw [List.flatMap_cons, List.forall_mem_append] at hitems
  obtain ⟨i, -, hc⟩ := exists_of_bind_eq_ok hc
  obtain ⟨v, hv, hc⟩ := exists_of_bind_eq_ok hc
  cases v with
  | func g =>
    obtain ⟨vs, hvs, hc⟩ := exists_of_bind_eq_ok hc
    cases hc
    exact ⟨h.operand hitems.1 hv, h.operands hitems.2 hvs⟩
  | _ => cases hc

end Evaluation

section Steps

variable {m m' : Module} {base : Nat}

lemma move (h : s.Confined S) (hagree : m.AgreeOn S m') (c : Config) {t : Transfer}
    (ht : ∀ g ∈ t.items, g ∈ S) :
    s.move ⟨m, c⟩ t = s.move ⟨m', c⟩ t ∧ ∀ mv, s.move ⟨m, c⟩ t = .ok mv → mv.Confined S := by
  cases t with
  | ret =>
    refine ⟨rfl, fun mv hmv => ?_⟩
    obtain ⟨v, hv, hmv⟩ := exists_of_bind_eq_ok hmv
    cases hmv
    exact h.readPlace hv
  | call p callee args target =>
    simp only [Machine.move, callMove_eq_called]
    cases hcalled : s.called p callee args with
    | error e =>
      refine ⟨rfl, fun mv hmv => ?_⟩
      cases hmv
    | ok a =>
      obtain ⟨hfunc, hvalues⟩ := h.called ht hcalled
      simp only [bind, Except.bind, newFrame_congr hagree c hfunc, true_and]
      intro mv hmv
      cases hnew : s.newFrame ⟨m', c⟩ a.2.1 a.2.2 (some (a.1, target)) with
      | error e =>
        rw [hnew] at hmv
        cases hmv
      | ok fr =>
        rw [hnew] at hmv
        cases hmv
        exact ⟨func_of_newFrame hnew ▸ hfunc, hvalues⟩
  | goto b =>
    refine ⟨rfl, fun mv hmv => ?_⟩
    cases hmv
    trivial
  | branch o onTrue onFalse =>
    refine ⟨rfl, fun mv hmv => ?_⟩
    obtain ⟨b, -, hmv⟩ := exists_of_bind_eq_ok hmv
    cases hmv
    trivial
  | switch p cases targets =>
    refine ⟨rfl, fun mv hmv => ?_⟩
    obtain ⟨b, -, hmv⟩ := exists_of_bind_eq_ok hmv
    cases hmv
    trivial
  | diverge => exact ⟨rfl, fun mv hmv => by cases hmv⟩
  | panic b => exact ⟨rfl, fun mv hmv => by cases hmv⟩

lemma return_ (h : s.Confined S) (hagree : m.AgreeOn S m') (c : Config) {v : Value} (hv : v.Confined S) :
    s.return_ ⟨m, c⟩ base v = s.return_ ⟨m', c⟩ base v ∧ (s.return_ ⟨m, c⟩ base v).Confined S := by
  unfold Machine.return_
  cases hframes : s.calls.frames with
  | nil =>
    simp only [CallStack.top?_eq_none hframes, true_and]
    exact h
  | cons fr callers =>
    have hfr : fr.func ∈ S := h.frames fr (hframes ▸ List.mem_cons_self)
    have hleave : s.leave ⟨m, c⟩ fr = s.leave ⟨m', c⟩ fr := by
      simp only [Machine.leave, nameOf, hagree fr.func hfr]
    have hleft : (s.leave ⟨m', c⟩ fr).Confined S := h.leave _ fr
    simp only [CallStack.top?_eq hframes, hleave, true_and]
    split
    · split_ifs
      · exact ⟨trivial, (hleft.writeSlot _ hv).jump _⟩
      · exact ⟨hv, hleft⟩
    · exact ⟨hv, hleft⟩

lemma apply (h : s.Confined S) (hagree : m.AgreeOn S m') (c : Config) {mv : Move} (hmv : mv.Confined S) :
    s.apply ⟨m, c⟩ base mv = s.apply ⟨m', c⟩ base mv ∧ (s.apply ⟨m, c⟩ base mv).Confined S := by
  cases mv with
  | jump b => exact ⟨rfl, trivial, h.jump b⟩
  | enter fr args =>
    refine ⟨?_, trivial, h.enter _ hmv.1 hmv.2⟩
    rw [Machine.apply, Machine.apply, enter_congr hagree c hmv.1]
  | leave v => exact h.return_ hagree c hmv

lemma step_within (h : s.Confined S) (hagree : m.AgreeOn S m') (c : Config) {name : BlockId}
    {rest : List Statement} {t : Terminator} (hcode : Control.Confined S (.within name rest t)) :
    s.step ⟨m, c⟩ base (.within name rest t) = s.step ⟨m', c⟩ base (.within name rest t) ∧
      (s.step ⟨m, c⟩ base (.within name rest t)).Confined S := by
  obtain ⟨hrest, ht⟩ := hcode
  cases hlimit : c.exceeded? (s.steps + 1) with
  | some limit =>
    rw [step_of_exceeded (x := ⟨m, c⟩) hlimit, step_of_exceeded (x := ⟨m', c⟩) hlimit]
    exact ⟨rfl, h.of_sameStacks ⟨rfl, rfl⟩⟩
  | none =>
    have hcounted : ∀ code, (s.counted name code).Confined S := fun _ => h.of_sameStacks ⟨rfl, rfl⟩
    cases rest with
    | cons st rest =>
      rw [step_cons (x := ⟨m, c⟩) hlimit, step_cons (x := ⟨m', c⟩) hlimit]
      have hleft : Control.Confined S (.within name rest t) :=
        ⟨fun st' hst' => hrest st' (List.mem_cons_of_mem st hst'), ht⟩
      refine ⟨rfl, ?_⟩
      split
      · exact hcounted _
      · exact ⟨hleft, hcounted _⟩
      · next i v hwrite =>
        have hv := (hcounted _).write? (hrest st List.mem_cons_self) hwrite
        exact ⟨hleft, (hcounted _).writeSlot i hv⟩
    | nil =>
      rw [step_nil (x := ⟨m, c⟩) hlimit, step_nil (x := ⟨m', c⟩) hlimit]
      obtain ⟨hmove, hconfined⟩ := (hcounted (.inr t.transfer)).move hagree c ht
      rw [← hmove]
      cases hmv : (s.counted name (.inr t.transfer)).move ⟨m, c⟩ t.transfer with
      | error e => exact ⟨rfl, hcounted _⟩
      | ok mv => exact (hcounted _).apply hagree c (hconfined mv hmv)

lemma currentBlock (h : s.Confined S) (hagree : m.AgreeOn S m') (hclosed : m.Closed S) (c : Config) :
    s.currentBlock ⟨m, c⟩ = s.currentBlock ⟨m', c⟩ ∧ ∀ name k, s.currentBlock ⟨m, c⟩ = .ok (name, k) →
      Control.Confined S (.within name k.statements k.terminator) := by
  unfold Machine.currentBlock
  cases hframes : s.calls.frames with
  | nil =>
    simp only [CallStack.top?_eq_none hframes, true_and]
    intro name k hk
    cases hk
  | cons fr callers =>
    have hfr : fr.func ∈ S := h.frames fr (hframes ▸ List.mem_cons_self)
    simp only [CallStack.top?_eq hframes, hagree fr.func hfr, true_and]
    intro name k hk
    split at hk
    · cases hk
    · next function hfunction =>
      split at hk
      · cases hk
      · next b hb =>
        cases hk
        exact hclosed.block hfr ((hagree fr.func hfr).trans hfunction) hb

/-- A step is the same whatever the other functions are, and leads to none of them. -/
lemma step (h : s.Confined S) (hagree : m.AgreeOn S m') (hclosed : m.Closed S) (c : Config) (base : Nat)
    {ctl : Control} (hcode : ctl.Confined S) :
    s.step ⟨m, c⟩ base ctl = s.step ⟨m', c⟩ base ctl ∧ (s.step ⟨m, c⟩ base ctl).Confined S := by
  cases ctl with
  | within name rest t => exact h.step_within hagree c hcode
  | start =>
    obtain ⟨hblock, hconfined⟩ := h.currentBlock hagree hclosed c
    cases hb : s.currentBlock ⟨m, c⟩ with
    | error e =>
      rw [step_start_of_error hb, step_start_of_error (hblock.symm.trans hb)]
      exact ⟨rfl, h⟩
    | ok b =>
      rw [step_start_of_ok hb, step_start_of_ok (hblock.symm.trans hb)]
      exact h.step_within hagree c (hconfined b.1 b.2 hb)

end Steps

end Confined

/-- Two runs among functions that the modules agree on are never cut off from each other. -/
lemma lockstep_confined {m m' : Module} (hagree : m.AgreeOn S m') (hclosed : m.Closed S) (c : Config)
    (base : Nat) :
    Lockstep ⟨m, c⟩ ⟨m', c⟩ base (fun ctl s => ctl.Confined S ∧ s.Confined S) fun _ _ => False where
  step := fun _ _ h => .inl (h.2.step hagree hclosed c base h.1).1
  keeps := by
    intro ctl s ctl' s' h hstep
    have hprogress := (h.2.step hagree hclosed c base h.1).2
    rw [hstep] at hprogress
    exact hprogress

section Calls

variable {m m' : Module} {f : FuncId} {args : List Value} {s : Machine}

lemma Confined.callFor (h : s.Confined S) (hagree : m.AgreeOn S m') (hclosed : m.Closed S) (c : Config)
    (hf : f ∈ S) (hargs : ∀ v ∈ args, v.Confined S) (fuel : Nat) :
    s.callFor ⟨m, c⟩ fuel f args = s.callFor ⟨m', c⟩ fuel f args := by
  have hframe : s.beginCall.newFrame ⟨m, c⟩ f args none = s.beginCall.newFrame ⟨m', c⟩ f args none :=
    newFrame_congr hagree c hf
  cases hnew : s.beginCall.newFrame ⟨m, c⟩ f args none with
  | error e => rw [callFor_of_refused hnew, callFor_of_refused (hframe.symm.trans hnew)]
  | ok fr =>
    have hfr : fr.func ∈ S := func_of_newFrame hnew ▸ hf
    have hentered := (h.of_sameStacks s.sameStacks_beginCall).enter ⟨m, c⟩ hfr hargs
    rw [callFor_of_entered hnew, callFor_of_entered (hframe.symm.trans hnew),
      ← enter_congr hagree c hfr]
    rcases (lockstep_confined hagree hclosed c s.depth).run (c := .start) ⟨trivial, hentered⟩ fuel with
      hrun | ⟨-, -, -, -, -, -, hcut⟩
    · rw [hrun]
    · exact hcut.elim

lemma Confined.of_during (h : s.Confined S) (hclosed : m.Closed S) (c : Config) (hf : f ∈ S)
    (hargs : ∀ v ∈ args, v.Confined S) {ctl : Control} {s' : Machine}
    (hduring : s.During ⟨m, c⟩ f args ctl s') : s'.Confined S := by
  obtain ⟨fr, hnew, hreach⟩ := hduring
  have hfr : fr.func ∈ S := func_of_newFrame hnew ▸ hf
  have hentered := (h.of_sameStacks s.sameStacks_beginCall).enter ⟨m, c⟩ hfr hargs
  have hlock : Lockstep ⟨m, c⟩ ⟨m, c⟩ s.depth _ _ := lockstep_confined (fun _ _ => rfl) hclosed c s.depth
  rcases hlock.reaches (c := .start) ⟨trivial, hentered⟩ hreach with ⟨-, -, hconfined⟩ | ⟨-, -, -, -, -, hcut⟩
  · exact hconfined
  · exact hcut.elim

/-- A call depends only on the functions that it can reach: where two modules hold the same under the keys of a
closed set, the call of one of these functions, with arguments that name no others, ends with the same value or
fault after the same steps, whatever else the modules hold. The stacks never name a function outside the set,
and if they did not before the call, its events are the same as well. -/
theorem call_eq_of_agreeOn (hagree : m.AgreeOn S m') (hclosed : m.Closed S) (c : Config) (hf : f ∈ S)
    (hargs : ∀ g, .func g ∈ args → g ∈ S) :
    fresh.call ⟨m, c⟩ f args = fresh.call ⟨m', c⟩ f args ∧
      ∀ s : Machine, s.Confined S →
        (∀ fuel, s.callFor ⟨m, c⟩ fuel f args = s.callFor ⟨m', c⟩ fuel f args) ∧
        ∀ ctl s', s.During ⟨m, c⟩ f args ctl s' → s'.Confined S := by
  have hvalues : ∀ v ∈ args, v.Confined S := by
    intro v hv
    cases v with
    | func g => exact hargs g hv
    | _ => trivial
  refine ⟨?_, fun s hs => ⟨hs.callFor hagree hclosed c hf hvalues, fun ctl s' hduring => ?_⟩⟩
  · rw [call_eq, call_eq]
    dsimp only
    rw [confined_fresh.callFor hagree hclosed c hf hvalues]
  · exact hs.of_during hclosed c hf hvalues hduring

end Calls

end Machine

/-- A function hands its argument to a second one, which it keeps in a temporary, and that one calls it. So a
third function is called that no code names. -/
def Module.handedOn : Module :=
  let hand : Body := ⟨1, 0, 1, .ofList [
    ⟨[⟨.assign (.temp 0) (.use (.func ⟨1⟩)), .none⟩],
      ⟨.call .result (.read (.temp 0)) [.read (.arg 0)] ⟨1⟩, .none⟩⟩, ⟨[], ⟨.ret, .none⟩⟩]⟩
  let apply : Body := ⟨1, 0, 0, .ofList [
    ⟨[], ⟨.call .result (.read (.arg 0)) [] ⟨1⟩, .none⟩⟩, ⟨[], ⟨.ret, .none⟩⟩]⟩
  let seven : Body := ⟨0, 0, 0, .ofList [
    ⟨[⟨.assign .result (.use (.int 7)), .none⟩], ⟨.ret, .none⟩⟩]⟩
  let m := (((Module.empty "functions").declare "hand" []).declare "apply" []).declare "seven" []
  ((m.define ⟨0⟩ hand).define ⟨1⟩ apply).define ⟨2⟩ seven

/-- A function without code, which no run reaches, makes a module unsound and changes no run. -/
theorem Machine.handedOn_call_eq :
    let m := Module.handedOn
    let m' := m.declare "stray" []
    let S : Set FuncId := {f | f ∈ [⟨0⟩, ⟨1⟩, ⟨2⟩]}
    m.AgreeOn S m' ∧ m.Closed S ∧ m.verifies ∧ ¬m'.verifies ∧
      (fresh.call ⟨m, .default⟩ ⟨0⟩ [.func ⟨2⟩]).1 = .ok (.int 7) ∧
      fresh.call ⟨m, .default⟩ ⟨0⟩ [.func ⟨2⟩] = fresh.call ⟨m', .default⟩ ⟨0⟩ [.func ⟨2⟩] := by
  intro m m' S
  have hagree : ∀ f ∈ [⟨0⟩, ⟨1⟩, ⟨2⟩], m.get? f = m'.get? f := by decide +kernel
  have hclosed : ∀ f ∈ [⟨0⟩, ⟨1⟩, ⟨2⟩], ∀ function ∈ m.get? f, ∀ k ∈ function.body.blocks.toList,
      ∀ g ∈ k.items, g ∈ [⟨0⟩, ⟨1⟩, ⟨2⟩] := by decide +kernel
  have hf : ⟨0⟩ ∈ S := List.mem_cons_self
  have hargs : ∀ g, .func g ∈ [Value.func ⟨2⟩] → g ∈ S := by
    intro g hg
    cases List.mem_singleton.1 hg
    decide
  have hcall := call_eq_of_agreeOn (S := S) hagree hclosed .default hf hargs
  exact ⟨hagree, hclosed, by decide +kernel, by decide +kernel, by decide +kernel, hcall.1⟩

end BlockIR
