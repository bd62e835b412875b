import BlockIR.Proofs.Machine.Framed
import BlockIR.Proofs.Machine.Operators

/-!
# Runs of well-formed modules

What the verifier checks of the code carries over to the frames and the values of a run: every frame
executes a block that exists, every frame that waits has a block to go on at, and every function value is
a function of the module. So no look-up of a run fails.
-/

namespace BlockIR

/-- The faults of a look-up that finds nothing. -/
def Fault.isStructural : Fault → Bool
  | undeclaredLocal _ | unknownBlock _ | unknownFunction _ | noFrame => true
  | _ => false

/-- The faults that the checks of the code are about. -/
def Fault.isChecked : Fault → Bool
  | argumentCount _ _ _ => true
  | f => f.isStructural

/-- A function value is one of the functions of the module. -/
def Value.Known (m : Module) : Value → Prop
  | func g => m.functions.contains g
  | _ => True

/-- A result has a property, or is a fault that no check is about. -/
def Safe {α : Type} (P : α → Prop) : Except Fault α → Prop
  | .ok a => P a
  | .error f => f.isChecked = false

lemma Safe.bind {α β : Type} {P : α → Prop} {Q : β → Prop} {r : Except Fault α} {k : α → Except Fault β}
    (h : Safe P r) (hk : ∀ a, P a → Safe Q (k a)) : Safe Q (r >>= k) := by
  cases r with
  | ok a => exact hk a h
  | error f => exact h

lemma Safe.mapM {α β : Type} {P : β → Prop} {k : α → Except Fault β} {xs : List α}
    (h : ∀ a ∈ xs, Safe P (k a)) :
    Safe (fun ys => ys.length = xs.length ∧ ∀ b ∈ ys, P b) (xs.mapM k) := by
  induction xs with
  | nil =>
    refine ⟨rfl, fun b hb => ?_⟩
    cases hb
  | cons a xs ih =>
    rw [List.mapM_cons]
    refine (h a List.mem_cons_self).bind fun b hb => ?_
    refine (ih fun a' ha' => h a' (List.mem_cons_of_mem a ha')).bind fun bs hbs => ?_
    refine ⟨congrArg (· + 1) hbs.1, fun b' hb' => ?_⟩
    rcases List.mem_cons.1 hb' with rfl | hb'
    · exact hb
    · exact hbs.2 b' hb'

lemma Computed.safe {r : Except Fault Value} (h : Computed r) (m : Module) : Safe (Value.Known m) r := by
  cases h with
  | int n => exact trivial
  | bool b => exact trivial
  | @fault e he =>
    show e.isChecked = false
    cases e <;> first | rfl | cases he

namespace Machine

structure Sound (m : Module) (bottom : Nat) (s : Machine) : Prop where
  frames : ∀ fr ∈ s.calls.frames, FrameSound m bottom fr
  returns : s.calls.frames.IsChain (ReturnsTo m)
  bottom_le : bottom ≤ s.values.size
  values : ∀ i, bottom ≤ i → (s.readSlot i).Known m

lemma readSlot_eq (s : Machine) (i : Nat) : s.readSlot i = s.values.toList[i]?.getD .uninit := by
  rw [readSlot, Array.getD_eq_getD_getElem?, Array.getElem?_toList]

lemma readSlot_writeSlot (s : Machine) (i j : Nat) (v : Value) :
    (s.writeSlot i v).readSlot j = v ∨ (s.writeSlot i v).readSlot j = s.readSlot j := by
  simp only [readSlot, writeSlot_values, Array.getD_eq_getD_getElem?, Array.getElem?_setIfInBounds]
  split_ifs with hij hi
  · exact .inl rfl
  · right
    rw [Array.getElem?_eq_none (by omega)]
  · exact .inr rfl

namespace Sound

variable {m : Module} {bottom : Nat} {s : Machine}

lemma framed (h : s.Sound m bottom) : s.Framed m bottom := ⟨h.frames, h.returns⟩

lemma of_eq {s' : Machine} (h : s.Sound m bottom) (hc : s'.calls = s.calls) (hv : s'.values = s.values) :
    s'.Sound m bottom := by
  refine ⟨hc ▸ h.frames, hc ▸ h.returns, hv ▸ h.bottom_le, fun i hi => ?_⟩
  unfold Machine.readSlot
  rw [hv]
  exact h.values i hi

lemma writeSlot (h : s.Sound m bottom) {v : Value} (hv : v.Known m) (i : Nat) :
    (s.writeSlot i v).Sound m bottom := by
  refine ⟨h.frames, h.returns, ?_, fun j hj => ?_⟩
  · rw [writeSlot_values, Array.size_setIfInBounds]
    exact h.bottom_le
  · rcases s.readSlot_writeSlot i j v with hw | hw
    · rw [hw]
      exact hv
    · rw [hw]
      exact h.values j hj

lemma jump (h : s.Sound m bottom) {fr : Frame} {callers : List Frame} {function : Function}
    {target : BlockId} (hf : s.calls.frames = fr :: callers) (hg : m.get? fr.func = some function)
    (ht : function.body.blocks.contains target) : (s.jump target).Sound m bottom :=
  have hjump := h.framed.jump hf hg ht
  ⟨hjump.frames, hjump.returns, h.bottom_le, h.values⟩

lemma enter (h : s.Sound m bottom) (x : Setting) {fr : Frame} {vs : List Value}
    (hfr : FrameSound m bottom fr) (hreturns : ∀ caller ∈ s.calls.frames.head?, ReturnsTo m fr caller)
    (hvs : ∀ v ∈ vs, v.Known m) : (s.enter x fr vs).Sound m bottom := by
  have henter := h.framed.enter x vs hfr hreturns
  refine ⟨henter.frames, henter.returns, ?_, fun i hi => ?_⟩
  · rw [enter_values, ← Array.length_toList, Array.toList_appendList, List.length_append,
      Array.length_toList]
    exact Nat.le_add_right_of_le h.bottom_le
  · have hvalue := h.values i hi
    rw [readSlot_eq] at hvalue ⊢
    rw [enter_values, Array.toList_appendList, List.getElem?_append]
    split_ifs with hlt
    · exact hvalue
    · cases hv : (fr.initialSlots vs)[i - s.values.toList.length]? with
      | none => exact trivial
      | some v =>
        have hmem := List.mem_of_getElem? hv
        simp only [Frame.initialSlots, List.mem_cons, List.mem_append, List.mem_replicate] at hmem
        rcases hmem with (rfl | hmem) | hmem
        · exact trivial
        · exact hvs v hmem
        · rw [hmem.2]
          exact trivial

lemma leave (h : s.Sound m bottom) (x : Setting) {fr : Frame} {callers : List Frame}
    (hf : s.calls.frames = fr :: callers) : (s.leave x fr).Sound m bottom := by
  have hleave := h.framed.leave x fr
  obtain ⟨-, -, -, -, hoffset⟩ := h.frames fr (hf ▸ List.mem_cons_self)
  have hbottom := h.bottom_le
  refine ⟨hleave.frames, hleave.returns, ?_, fun i hi => ?_⟩
  · rw [leave_values, Array.size_shrink]
    omega
  · have hvalue := h.values i hi
    rw [readSlot_eq] at hvalue ⊢
    rw [leave_values, Array.toList_shrink, List.getElem?_take]
    split_ifs
    · exact hvalue
    · exact trivial

section Evaluation

variable {fr : Frame} {callers : List Frame} {function : Function}

lemma safe_slot (h : s.Sound m bottom) (hf : s.calls.frames = fr :: callers)
    (hg : m.get? fr.func = some function) {p : Place} (hp : function.body.declares p) :
    Safe (bottom ≤ ·) (s.slot p) := by
  obtain ⟨i, hi, hle⟩ := h.framed.exists_slot hf hg hp
  rw [hi]
  exact hle

lemma safe_readPlace (h : s.Sound m bottom) (hf : s.calls.frames = fr :: callers)
    (hg : m.get? fr.func = some function) {p : Place} (hp : function.body.declares p) :
    Safe (Value.Known m) (s.readPlace p) :=
  (h.safe_slot hf hg hp).bind fun i hi => h.values i hi

lemma safe_operand (h : s.Sound m bottom) (hf : s.calls.frames = fr :: callers)
    (hg : m.get? fr.func = some function) {o : Operand} (ho : o.WellFormed m function.body) :
    Safe (Value.Known m) (s.operand o) := by
  cases o with
  | read p => exact h.safe_readPlace hf hg ho
  | const c => exact c.computed_value.safe m
  | func g => exact ho

lemma safe_rvalue (h : s.Sound m bottom) (hf : s.calls.frames = fr :: callers)
    (hg : m.get? fr.func = some function) {r : Rvalue} (hr : r.WellFormed m function.body) :
    Safe (Value.Known m) (s.rvalue r) := by
  cases r with
  | use o => exact h.safe_operand hf hg hr
  | binary op a b =>
    refine (h.safe_operand hf hg hr.1).bind fun v _ => ?_
    exact (h.safe_operand hf hg hr.2).bind fun w _ => (op.computed_eval v w).safe m
  | unary op a => exact (h.safe_operand hf hg hr).bind fun v _ => (op.computed_eval v).safe m

lemma safe_write? (h : s.Sound m bottom) (hf : s.calls.frames = fr :: callers)
    (hg : m.get? fr.func = some function) {a : Action} (ha : a.WellFormed m function.body) :
    Safe (fun w => ∀ i v, w = some (i, v) → v.Known m) (s.write? a) := by
  cases a with
  | assign p r =>
    refine (h.safe_slot hf hg ha.1).bind fun i _ => ?_
    refine (h.safe_rvalue hf hg ha.2).bind fun v hv => ?_
    intro j w hw
    cases hw
    exact hv
  | drop k p =>
    have hslot := h.safe_slot hf hg ha
    simp only [write?]
    cases hi : s.slot p with
    | error e =>
      rw [hi] at hslot
      exact hslot
    | ok i =>
      intro j w hw
      cases hw

lemma safe_branchTarget (h : s.Sound m bottom) (hf : s.calls.frames = fr :: callers)
    (hg : m.get? fr.func = some function) {c : Operand} (hc : c.WellFormed m function.body)
    (t e : BlockId) : Safe (· ∈ [t, e]) (s.branchTarget c t e) := by
  refine (h.safe_operand hf hg hc).bind fun v _ => ?_
  cases v with
  | bool b =>
    cases b
    · exact List.mem_cons_of_mem _ List.mem_cons_self
    · exact List.mem_cons_self
  | uninit => exact rfl
  | int n => exact rfl
  | func g => exact rfl

lemma safe_firstMatch (m : Module) (v : Value) (cases : List Constant) :
    Safe (fun _ => True) (firstMatch v cases) := by
  induction cases with
  | nil => exact trivial
  | cons c cs ih =>
    refine (c.computed_value.safe m).bind fun w _ => ?_
    split_ifs
    · exact trivial
    · exact ih.bind fun _ _ => trivial

lemma safe_switchTarget (h : s.Sound m bottom) (hf : s.calls.frames = fr :: callers)
    (hg : m.get? fr.func = some function) {p : Place} (hp : function.body.declares p)
    (cases : List Constant) (targets : List BlockId) :
    Safe (· ∈ targets) (s.switchTarget p cases targets) := by
  refine (h.safe_readPlace hf hg hp).bind fun v _ => ?_
  refine (safe_firstMatch m v cases).bind fun i _ => ?_
  cases ht : targets[i]? with
  | none => exact rfl
  | some b => exact List.mem_of_getElem? ht

end Evaluation

end Sound

/-- What a step can fail with, given the code that it carries out: among the faults that the checks are
about it is only the wrong number of arguments, and that only where a place holds the callee. -/
def Admits (code : Action ⊕ Transfer) (e : Fault) : Prop :=
  e.isChecked = false ∨
    e.isStructural = false ∧ ∃ p q args target, code = .inr (.call p (.read q) args target)

def MoveSound (m : Module) (bottom : Nat) (function : Function) : Move → Prop
  | .jump target => function.body.blocks.contains target
  | .enter fr vs => FrameSound m bottom fr ∧ (∀ v ∈ vs, v.Known m) ∧
      ∀ i target, fr.returnTo = some (i, target) → function.body.blocks.contains target
  | .leave v => v.Known m

def ProgressSound (m : Module) (bottom : Nat) (code : Action ⊕ Transfer) : Progress → Prop
  | .running c s => s.Sound m bottom ∧ s.ControlSound m c
  | .returned _ s => s.Sound m bottom
  | .failed e _ => Admits code e

section Steps

variable {x : Setting} {bottom base : Nat} {s : Machine} {fr : Frame} {callers : List Frame}
  {function : Function}

lemma newFrame_eq_error {f : FuncId} {g : Function} {vs : List Value}
    {returnTo : Option (Nat × BlockId)} {e : Fault} (hg : x.module.get? f = some g)
    (he : s.newFrame x f vs returnTo = .error e) :
    e.isChecked = false ∨ e.isStructural = false ∧ vs.length ≠ g.body.args.toNat := by
  unfold newFrame at he
  simp only [hg] at he
  split_ifs at he with hcount hdepth
  · cases he
    exact .inr ⟨rfl, hcount⟩
  · cases he
    exact .inl rfl

lemma Sound.callMove_sound (hm : x.module.WellFormed) (h : s.Sound x.module bottom)
    (hf : s.calls.frames = fr :: callers) (hg : x.module.get? fr.func = some function) {p : Place}
    {callee : Operand} {args : List Operand} {target : BlockId}
    (ht : (Transfer.call p callee args target).WellFormed x.module function.body) :
    match s.callMove x p callee args target with
    | .ok mv => MoveSound x.module bottom function mv
    | .error e => Admits (.inr (.call p callee args target)) e := by
  obtain ⟨⟨hp, hcallee, hargs, htakes⟩, htargets⟩ := ht
  have hslot := h.safe_slot hf hg hp
  have hvalue := h.safe_operand hf hg hcallee
  have hvalues := Safe.mapM fun a ha => h.safe_operand hf hg (hargs a ha)
  unfold callMove
  cases hi : s.slot p with
  | error e =>
    rw [hi] at hslot
    exact .inl hslot
  | ok i =>
    cases hv : s.operand callee with
    | error e =>
      rw [hv] at hvalue
      exact .inl hvalue
    | ok v =>
      cases v with
      | uninit => exact .inl rfl
      | bool b => exact .inl rfl
      | int n => exact .inl rfl
      | func f =>
        simp only [bind, Except.bind]
        cases hvs : args.mapM s.operand with
        | error e =>
          rw [hvs] at hvalues
          exact .inl hvalues
        | ok vs =>
          simp only
          rw [hvs] at hvalues
          cases hnew : s.newFrame x f vs (some (i, target)) with
          | ok fr' =>
            obtain ⟨hfr', hreturn⟩ := frameSound_of_newFrame hm h.bottom_le hnew
            refine ⟨hfr', hvalues.2, fun j target' hj => ?_⟩
            obtain ⟨-, rfl⟩ := Prod.mk.inj (Option.some.inj (hreturn.symm.trans hj))
            exact htargets target List.mem_cons_self
          | error e =>
            rw [hv] at hvalue
            obtain ⟨g, hfun⟩ := Module.contains_iff_get?.1 hvalue
            rcases newFrame_eq_error hfun hnew with he | ⟨he, hcount⟩
            · exact .inl he
            · cases callee with
              | read q => exact .inr ⟨he, p, q, args, target, rfl⟩
              | const c => cases c <;> cases hv
              | func f' =>
                cases hv
                exact absurd (hvalues.1.trans (htakes g hfun)) hcount

lemma Sound.move_sound (hm : x.module.WellFormed) (h : s.Sound x.module bottom)
    (hf : s.calls.frames = fr :: callers) (hg : x.module.get? fr.func = some function) {t : Transfer}
    (ht : t.WellFormed x.module function.body) :
    match s.move x t with
    | .ok mv => MoveSound x.module bottom function mv
    | .error e => Admits (.inr t) e := by
  have of_safe : ∀ {r : Except Fault Move}, Safe (MoveSound x.module bottom function) r →
      match r with
      | .ok mv => MoveSound x.module bottom function mv
      | .error e => Admits (.inr t) e := by
    intro r hr
    cases r with
    | ok mv => exact hr
    | error e => exact .inl hr
  cases t with
  | ret => exact of_safe ((h.safe_readPlace hf hg rfl).bind fun v hv => hv)
  | goto b => exact ht.targets b List.mem_cons_self
  | branch c t e =>
    exact of_safe ((h.safe_branchTarget hf hg ht.inputs t e).bind fun b hb => ht.targets b hb)
  | switch p cases targets =>
    exact of_safe ((h.safe_switchTarget hf hg ht.inputs.1 cases targets).bind
      fun b hb => ht.targets b hb)
  | call p callee args target => exact h.callMove_sound hm hf hg ht
  | diverge => exact .inl rfl
  | panic b => exact .inl rfl

lemma Sound.return_sound (h : s.Sound x.module bottom) (hf : s.calls.frames = fr :: callers) {v : Value}
    (hv : v.Known x.module) (code : Action ⊕ Transfer) :
    ProgressSound x.module bottom code (s.return_ x base v) := by
  have hleave := h.leave x hf
  have hcallers : (s.leave x fr).calls.frames = callers := by
    rw [leave_calls, CallStack.frames_pop, hf, List.tail_cons]
  unfold return_
  simp only [CallStack.top?_eq hf]
  split
  · next i target hreturn =>
    split_ifs with hdepth
    · rw [depth_eq_length, hcallers] at hdepth
      cases callers with
      | nil => exact absurd hdepth (Nat.not_lt_zero base)
      | cons caller rest =>
        have hreturns := h.returns
        rw [hf, List.isChain_cons_cons] at hreturns
        obtain ⟨function, hg, ht⟩ := hreturns.1 i target hreturn
        have hwrite := hleave.writeSlot hv i
        refine ⟨hwrite.jump hcallers hg ht, ?_⟩
        have hframes := CallStack.frames_jump target hcallers
        show ((s.leave x fr).calls.jump target).frames ≠ []
        rw [hframes]
        exact List.cons_ne_nil _ _
    · exact hleave
  · exact hleave

lemma Sound.apply_sound (h : s.Sound x.module bottom) (hf : s.calls.frames = fr :: callers)
    (hg : x.module.get? fr.func = some function) {mv : Move}
    (hmv : MoveSound x.module bottom function mv) (code : Action ⊕ Transfer) :
    ProgressSound x.module bottom code (s.apply x base mv) := by
  cases mv with
  | jump target =>
    refine ⟨h.jump hf hg hmv, ?_⟩
    show (s.calls.jump target).frames ≠ []
    rw [CallStack.frames_jump target hf]
    exact List.cons_ne_nil _ _
  | enter fr' vs =>
    obtain ⟨hfr', hvs, hreturn⟩ := hmv
    refine ⟨h.enter x hfr' (fun caller hcaller i target hi => ?_) hvs, List.cons_ne_nil _ _⟩
    rw [hf, List.head?_cons, Option.mem_some_iff] at hcaller
    subst hcaller
    exact ⟨function, hg, hreturn i target hi⟩
  | leave v => exact h.return_sound hf hmv code

lemma Sound.execute_sound (hm : x.module.WellFormed) (h : s.Sound x.module bottom) {name : BlockId}
    {rest : List Statement} {t : Terminator} (hc : s.ControlSound x.module (.within name rest t)) :
    ProgressSound x.module bottom (frontCode rest t) (s.execute x base name rest t) := by
  unfold execute
  simp only
  split
  · exact .inl rfl
  · cases rest with
    | nil =>
      obtain ⟨fr, callers, function, hf, hg, -, ht⟩ := hc
      have hs : ∀ e, Sound x.module bottom (record e { s with steps := s.steps + 1 }) :=
        fun _ => h.of_eq rfl rfl
      have hmove := (hs (.executing name (.inr t.transfer))).move_sound hm hf hg ht
      simp only
      split
      · next e he =>
        rw [he] at hmove
        exact hmove
      · next mv he =>
        rw [he] at hmove
        exact (hs _).apply_sound hf hg hmove _
    | cons st rest =>
      have hcontrol : ∀ s' : Machine, s'.calls = s.calls → s'.ControlSound x.module (.within name rest t) :=
        fun _ hs' => hc.tail hs'
      obtain ⟨fr, callers, function, hf, hg, hrest, -⟩ := hc
      have hs : ∀ e, Sound x.module bottom (record e { s with steps := s.steps + 1 }) :=
        fun _ => h.of_eq rfl rfl
      have hwrite := (hs (.executing name (.inl st.action))).safe_write? hf hg
        (hrest st List.mem_cons_self)
      simp only
      split
      · next e he =>
        rw [he] at hwrite
        exact .inl hwrite
      · exact ⟨hs _, hcontrol _ rfl⟩
      · next i v he =>
        rw [he] at hwrite
        exact ⟨(hs _).writeSlot (hwrite i v rfl) i, hcontrol _ rfl⟩

/-- There is code to carry out, and the step that does so keeps the invariant or fails as it may. -/
lemma Sound.step_sound (base : Nat) (hm : x.module.WellFormed) (h : s.Sound x.module bottom) {c : Control}
    (hc : s.ControlSound x.module c) :
    ∃ code, s.pending? x c = some code ∧ ProgressSound x.module bottom code (s.step x base c) := by
  cases c with
  | within name rest t => exact ⟨frontCode rest t, rfl, h.execute_sound hm hc⟩
  | start =>
    obtain ⟨name, k, hblock, hwithin⟩ := h.framed.exists_block hm hc
    refine ⟨frontCode k.statements k.terminator, ?_, ?_⟩
    · simp only [pending?, hblock]
      rfl
    · rw [step_start_of_ok hblock]
      exact h.execute_sound hm hwithin

lemma Sound.of_reaches (hm : x.module.WellFormed) (h : s.Sound x.module bottom) {c c' : Control}
    {s' : Machine} (hc : s.ControlSound x.module c) (hr : Reaches x base c s c' s') :
    s'.Sound x.module bottom ∧ s'.ControlSound x.module c' := by
  induction hr with
  | refl => exact ⟨h, hc⟩
  | tail _ hstep ih =>
    obtain ⟨hs, hcontrol⟩ := ih h hc
    obtain ⟨code, -, hprogress⟩ := hs.step_sound base hm hcontrol
    rw [hstep] at hprogress
    exact hprogress

end Steps

/-- A slot of one of the frames on the stack. -/
def Live (s : Machine) (i : Nat) : Prop :=
  ∃ fr ∈ s.calls.frames, fr.offset ≤ i ∧ i < fr.offset + fr.size

/-- A call of a function fails with a fault before it begins, or where it calls what a place holds. -/
def FailsAtCall (x : Setting) (f : FuncId) (args : List Value) (s : Machine) (e : Fault) : Prop :=
  s.beginCall.newFrame x f args none = .error e ∨
    ∃ c s₁ s₂ p q as target, s.During x f args c s₁ ∧
      s₁.pending? x c = some (.inr (.call p (.read q) as target)) ∧
      s₁.step x s.depth c = .failed e s₂

section Calls

variable {x : Setting} {f : FuncId} {args : List Value} {s : Machine}

lemma Sound.of_during (hm : x.module.WellFormed) (ha : ∀ v ∈ args, v.Known x.module) (hs : s.depth = 0)
    {c : Control} {s' : Machine} (h : s.During x f args c s') :
    s'.Sound x.module s.values.size ∧ s'.ControlSound x.module c := by
  obtain ⟨fr, hnew, hreach⟩ := h
  have hnone : s.beginCall.calls.frames = [] := by
    rw [beginCall_calls, ← List.length_eq_zero_iff, ← depth_eq_length, hs]
  have hbegin : s.beginCall.Sound x.module s.values.size := by
    refine ⟨?_, ?_, ?_, fun i hi => ?_⟩
    · rw [hnone]
      intro fr hfr
      cases hfr
    · rw [hnone]
      exact .nil
    · rw [beginCall_values]
    · rw [readSlot_eq, beginCall_values, List.getElem?_eq_none (Array.length_toList ▸ hi)]
      exact trivial
  obtain ⟨hfr, -⟩ := frameSound_of_newFrame hm hbegin.bottom_le hnew
  have henter := hbegin.enter x hfr (fun caller hcaller => by simp [hnone] at hcaller) ha
  have hstart : (s.beginCall.enter x fr args).ControlSound x.module .start := List.cons_ne_nil _ _
  exact henter.of_reaches hm hstart hreach

lemma failsAtCall_of_callFor (hm : x.module.WellFormed) (hf : x.module.functions.contains f)
    (ha : ∀ v ∈ args, v.Known x.module) (hs : s.depth = 0) {fuel : Nat} {e : Fault}
    (h : (s.callFor x fuel f args).1 = .failed e) :
    e.isStructural = false ∧ (e.isChecked → s.FailsAtCall x f args e) := by
  have of_unchecked : e.isChecked = false →
      e.isStructural = false ∧ (e.isChecked → s.FailsAtCall x f args e) := by
    intro he
    refine ⟨?_, fun hchecked => ?_⟩
    · cases e <;> first | rfl | exact he
    · rw [he] at hchecked
      cases hchecked
  rcases refused_or_failed_of_callFor h with hnew | ⟨c, s₁, s₂, hduring, hstep⟩
  · obtain ⟨function, hfunction⟩ := Module.contains_iff_get?.1 hf
    rcases newFrame_eq_error hfunction hnew with he | ⟨he, -⟩
    · exact of_unchecked he
    · exact ⟨he, fun _ => .inl hnew⟩
  · obtain ⟨hsound, hcontrol⟩ := Sound.of_during hm ha hs hduring
    obtain ⟨code, hcode, hprogress⟩ := hsound.step_sound s.depth hm hcontrol
    rw [hstep] at hprogress
    rcases hprogress with he | ⟨he, p, q, as, target, rfl⟩
    · exact of_unchecked he
    · exact ⟨he, fun _ => .inr ⟨c, s₁, s₂, p, q, as, target, hduring, hcode, hstep⟩⟩

/-- However long the call of a function of a verified module runs, with arguments that name no functions
but its own, no look-up fails, and the number of arguments is only wrong at the call itself or where a
place holds the callee. At every point the slots in use name no functions but those of the module. -/
theorem never_stuck_of_verifies (x : Setting) (f : FuncId) (args : List Value) (s : Machine)
    (hv : x.module.verifies) (hf : x.module.functions.contains f)
    (ha : ∀ g, .func g ∈ args → x.module.functions.contains g) (hs : s.depth = 0) :
    (∀ fuel e, (s.callFor x fuel f args).1 = .failed e → e.isStructural = false ∧
      ∀ name expected given, e = .argumentCount name expected given → s.FailsAtCall x f args e) ∧
    (∀ e, (s.call x f args).1 = .error e → e.isStructural = false ∧
      ∀ name expected given, e = .argumentCount name expected given → s.FailsAtCall x f args e) ∧
    ∀ c s', s.During x f args c s' → ∀ i, s'.Live i → ∀ g, s'.readSlot i = .func g →
      x.module.functions.contains g := by
  have hm := Module.verifies_iff_wellFormed.1 hv
  have hknown : ∀ v ∈ args, v.Known x.module := by
    intro v hv
    cases v with
    | uninit => exact trivial
    | bool b => exact trivial
    | int n => exact trivial
    | func g => exact ha g hv
  have hfor : ∀ fuel e, (s.callFor x fuel f args).1 = .failed e → e.isStructural = false ∧
      ∀ name expected given, e = .argumentCount name expected given → s.FailsAtCall x f args e := by
    intro fuel e he
    obtain ⟨hstructural, hfails⟩ := failsAtCall_of_callFor hm hf hknown hs he
    refine ⟨hstructural, fun name expected given hcount => hfails ?_⟩
    rw [hcount]
    rfl
  refine ⟨hfor, fun e he => ?_, fun c s' hduring i hi g hg => ?_⟩
  · unfold call at he
    rcases hcall : s.callFor x x.config.fuel f args with ⟨_ | fault | _, s'⟩ <;> rw [hcall] at he <;>
      cases he
    · exact hfor x.config.fuel e (congrArg Prod.fst hcall)
    · refine ⟨rfl, fun name expected given hcount => ?_⟩
      cases hcount
  · obtain ⟨hsound, -⟩ := Sound.of_during hm hknown hs hduring
    obtain ⟨fr, hfr, hle, -⟩ := hi
    obtain ⟨-, -, -, -, hoffset⟩ := hsound.frames fr hfr
    have hvalue := hsound.values i (Nat.le_trans hoffset hle)
    rw [hg] at hvalue
    exact hvalue

end Calls

end Machine

/-- A module with a function that calls its argument with that argument, and a function of two arguments. -/
def Module.selfApplication : Module :=
  let apply : Body := ⟨1, 0, 0, .ofList [
    ⟨[], ⟨.call .result (.read (.arg 0)) [.read (.arg 0)] ⟨1⟩, .none⟩⟩, ⟨[], ⟨.ret, .none⟩⟩]⟩
  let first : Body := ⟨2, 0, 0, .ofList [
    ⟨[⟨.assign .result (.use (.read (.arg 0))), .none⟩], ⟨.ret, .none⟩⟩]⟩
  let m := ((Module.empty "functions").declare "apply" []).declare "first" []
  (m.define ⟨0⟩ apply).define ⟨1⟩ first

/-- A verified module can still give the wrong number of arguments, to a function that a place holds. -/
theorem Machine.selfApplication_failsAtCall :
    Module.selfApplication.verifies ∧
      (fresh.call ⟨.selfApplication, .default⟩ ⟨0⟩ [.func ⟨1⟩]).1 = .error (.argumentCount "first" 2 1) ∧
      fresh.FailsAtCall ⟨.selfApplication, .default⟩ ⟨0⟩ [.func ⟨1⟩] (.argumentCount "first" 2 1) := by
  have hv : Module.selfApplication.verifies := by decide +kernel
  have hcall : (fresh.call ⟨.selfApplication, .default⟩ ⟨0⟩ [.func ⟨1⟩]).1 =
      .error (.argumentCount "first" 2 1) := by decide +kernel
  have h := never_stuck_of_verifies ⟨.selfApplication, .default⟩ ⟨0⟩ [.func ⟨1⟩] fresh hv
    (by decide +kernel) (fun g hg => by cases List.mem_singleton.1 hg; decide +kernel) rfl
  exact ⟨hv, hcall, (h.2.1 _ hcall).2 _ _ _ rfl⟩

end BlockIR
