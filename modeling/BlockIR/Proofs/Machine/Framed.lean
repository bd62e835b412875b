import BlockIR.Proofs.Machine.Counting
import BlockIR.Proofs.Machine.Effects
import BlockIR.Proofs.WellFormed
import Mathlib.Data.List.Chain

/-!
# The frames of verified code

In a well-formed module every frame executes a block that exists, and every frame that waits has a block to go
on at, whatever values the slots hold. So there is always code in front of a run, and its places have slots.
-/

namespace BlockIR.Machine

/-- A frame executes a block of a function of the module, has the slots of its body, and lies above the
first `bottom` slots of the value stack. -/
def FrameSound (m : Module) (bottom : Nat) (fr : Frame) : Prop :=
  ∃ function, m.get? fr.func = some function ∧ fr.Fits function.body ∧
    function.body.blocks.contains fr.block ∧ bottom ≤ fr.offset

/-- The block at which the frame under a frame goes on is one of its own. -/
def ReturnsTo (m : Module) (fr caller : Frame) : Prop :=
  ∀ i target, fr.returnTo = some (i, target) →
    ∃ function, m.get? caller.func = some function ∧ function.body.blocks.contains target

structure Framed (m : Module) (bottom : Nat) (s : Machine) : Prop where
  frames : ∀ fr ∈ s.calls.frames, FrameSound m bottom fr
  returns : s.calls.frames.IsChain (ReturnsTo m)

/-- There is a frame, and the code that is left of a block is that of its function. -/
def ControlSound (m : Module) (s : Machine) : Control → Prop
  | .start => s.calls.frames ≠ []
  | .within _ rest t => ∃ fr callers function, s.calls.frames = fr :: callers ∧
      m.get? fr.func = some function ∧ (∀ st ∈ rest, st.action.WellFormed m function.body) ∧
      t.transfer.WellFormed m function.body

lemma ControlSound.tail {m : Module} {s s' : Machine} {name : BlockId} {st : Statement} {rest : List Statement}
    {t : Terminator} (h : s.ControlSound m (.within name (st :: rest) t)) (hs : s'.calls = s.calls) :
    s'.ControlSound m (.within name rest t) := by
  obtain ⟨fr, callers, function, hf, hg, hrest, ht⟩ := h
  exact ⟨fr, callers, function, hs ▸ hf, hg, (List.forall_mem_cons.1 hrest).2, ht⟩

section Moves

variable {x : Setting} {bottom : Nat} {s : Machine}

lemma mem_of_branchTarget {c : Operand} {onTrue onFalse b : BlockId}
    (h : s.branchTarget c onTrue onFalse = .ok b) : b ∈ [onTrue, onFalse] := by
  obtain ⟨v, -, h⟩ := exists_of_bind_eq_ok h
  cases v with
  | bool value =>
    cases h
    cases value
    · exact List.mem_cons_of_mem _ List.mem_cons_self
    · exact List.mem_cons_self
  | _ => cases h

lemma mem_of_switchTarget {p : Place} {cases : List Constant} {targets : List BlockId} {b : BlockId}
    (h : s.switchTarget p cases targets = .ok b) : b ∈ targets := by
  obtain ⟨v, -, h⟩ := exists_of_bind_eq_ok h
  obtain ⟨i, -, h⟩ := exists_of_bind_eq_ok h
  split at h
  · next target htarget =>
    cases h
    exact List.mem_of_getElem? htarget
  · cases h

lemma frameSound_of_newFrame (hm : x.module.WellFormed) (hbottom : bottom ≤ s.values.size) {f : FuncId}
    {args : List Value} {returnTo : Option (Nat × BlockId)} {fr : Frame}
    (hnew : s.newFrame x f args returnTo = .ok fr) :
    FrameSound x.module bottom fr ∧ fr.returnTo = returnTo := by
  obtain ⟨g, hg, -, -, rfl⟩ := newFrame_eq_ok hnew
  exact ⟨⟨g, hg, Frame.fits_ofBody f g.body _ _, (hm.body hg).entry, hbottom⟩, rfl⟩

/-- A move goes on at a block of the function, or pushes a frame and goes on at one later. -/
def MoveFramed (m : Module) (bottom : Nat) (function : Function) : Move → Prop
  | .jump target => function.body.blocks.contains target
  | .enter fr _ => FrameSound m bottom fr ∧
      ∀ i target, fr.returnTo = some (i, target) → function.body.blocks.contains target
  | .leave _ => True

lemma moveFramed_of_move (hm : x.module.WellFormed) (hbottom : bottom ≤ s.values.size)
    {function : Function} {t : Transfer} (ht : t.WellFormed x.module function.body) {mv : Move}
    (h : s.move x t = .ok mv) : MoveFramed x.module bottom function mv := by
  cases t with
  | ret =>
    obtain ⟨v, -, h⟩ := exists_of_bind_eq_ok h
    cases h
    trivial
  | goto b =>
    cases h
    exact ht.targets b List.mem_cons_self
  | branch c onTrue onFalse =>
    obtain ⟨b, hb, h⟩ := exists_of_bind_eq_ok h
    cases h
    exact ht.targets b (mem_of_branchTarget hb)
  | switch p cases targets =>
    obtain ⟨b, hb, h⟩ := exists_of_bind_eq_ok h
    cases h
    exact ht.targets b (mem_of_switchTarget hb)
  | call p callee args target =>
    obtain ⟨i, f, vs, fr, -, hnew, rfl⟩ := newFrame_of_callMove h
    obtain ⟨hfr, hreturn⟩ := frameSound_of_newFrame hm hbottom hnew
    refine ⟨hfr, fun j target' hj => ?_⟩
    obtain ⟨-, rfl⟩ := Prod.mk.inj (Option.some.inj (hreturn.symm.trans hj))
    exact ht.targets target List.mem_cons_self
  | diverge => cases h
  | panic b => cases h

end Moves

namespace Framed

variable {m : Module} {bottom : Nat} {s : Machine} {fr : Frame} {callers : List Frame} {function : Function}

lemma of_calls_eq {s' : Machine} (h : s.Framed m bottom) (hc : s'.calls = s.calls) : s'.Framed m bottom :=
  ⟨hc ▸ h.frames, hc ▸ h.returns⟩

lemma of_frames_nil (h : s.calls.frames = []) : s.Framed m bottom := by
  constructor
  · rw [h]
    exact List.forall_mem_nil _
  · rw [h]
    exact .nil

lemma top (h : s.Framed m bottom) (hf : s.calls.frames = fr :: callers)
    (hg : m.get? fr.func = some function) : fr.Fits function.body ∧ bottom ≤ fr.offset := by
  obtain ⟨function', hg', hfits, -, hoffset⟩ := h.frames fr (hf ▸ List.mem_cons_self)
  obtain rfl := Option.some.inj (hg.symm.trans hg')
  exact ⟨hfits, hoffset⟩

lemma exists_slot (h : s.Framed m bottom) (hf : s.calls.frames = fr :: callers)
    (hg : m.get? fr.func = some function) {p : Place} (hp : function.body.declares p) :
    ∃ i, s.slot p = .ok i ∧ bottom ≤ i := by
  obtain ⟨hfits, hoffset⟩ := h.top hf hg
  refine ⟨fr.offset + function.body.rank p, ?_, Nat.le_add_right_of_le hoffset⟩
  simp only [slot, CallStack.top?_eq hf, hfits.slot?_eq, hp, if_true]

lemma jump (h : s.Framed m bottom) (hf : s.calls.frames = fr :: callers)
    (hg : m.get? fr.func = some function) {target : BlockId}
    (ht : function.body.blocks.contains target) : (s.jump target).Framed m bottom := by
  have hframes := CallStack.frames_jump target hf
  have hall := h.frames
  have hreturns := h.returns
  obtain ⟨hfits, hoffset⟩ := h.top hf hg
  rw [hf] at hall hreturns
  refine ⟨?_, ?_⟩
  · rw [jump_calls, hframes, List.forall_mem_cons]
    exact ⟨⟨function, hg, hfits.jump target, ht, hoffset⟩, (List.forall_mem_cons.1 hall).2⟩
  · rw [jump_calls, hframes]
    cases callers with
    | nil => exact .singleton _
    | cons caller rest =>
      rw [List.isChain_cons_cons] at hreturns ⊢
      exact hreturns

lemma enter (h : s.Framed m bottom) (x : Setting) (args : List Value) (hfr : FrameSound m bottom fr)
    (hreturns : ∀ caller ∈ s.calls.frames.head?, ReturnsTo m fr caller) :
    (s.enter x fr args).Framed m bottom := by
  refine ⟨?_, ?_⟩
  · rw [enter_calls, CallStack.frames_push, List.forall_mem_cons]
    exact ⟨hfr, h.frames⟩
  · rw [enter_calls, CallStack.frames_push, List.isChain_cons]
    exact ⟨hreturns, h.returns⟩

lemma leave (h : s.Framed m bottom) (x : Setting) (fr : Frame) : (s.leave x fr).Framed m bottom :=
  ⟨fun fr' hfr' => h.frames fr' (List.mem_of_mem_tail hfr'), h.returns.tail⟩

section Steps

variable {x : Setting} {base : Nat}

lemma return_ (h : s.Framed x.module bottom) {v : Value} {c : Control} {s' : Machine}
    (hstep : s.return_ x base v = .running c s') : s'.Framed x.module bottom ∧ s'.ControlSound x.module c := by
  unfold Machine.return_ at hstep
  cases hf : s.calls.frames with
  | nil =>
    simp only [CallStack.top?_eq_none hf, reduceCtorEq] at hstep
  | cons fr callers =>
    have hpop : (s.leave x fr).calls.frames = callers := by
      rw [leave_calls, CallStack.frames_pop, hf, List.tail_cons]
    simp only [CallStack.top?_eq hf] at hstep
    split at hstep
    · next i target hreturn =>
      split_ifs at hstep with hbase
      cases hstep
      rw [depth_eq_length, hpop] at hbase
      cases callers with
      | nil => exact absurd hbase (Nat.not_lt_zero base)
      | cons caller rest =>
        have hreturns := h.returns
        rw [hf, List.isChain_cons_cons] at hreturns
        obtain ⟨function, hg, ht⟩ := hreturns.1 i target hreturn
        have hleft := h.leave x fr
        have hwritten : ((s.leave x fr).writeSlot i v).Framed x.module bottom := hleft.of_calls_eq rfl
        refine ⟨hwritten.jump hpop hg ht, ?_⟩
        show ((s.leave x fr).calls.jump target).frames ≠ []
        rw [CallStack.frames_jump target hpop]
        exact List.cons_ne_nil _ _
    · cases hstep

lemma apply (h : s.Framed x.module bottom) (hf : s.calls.frames = fr :: callers)
    (hg : x.module.get? fr.func = some function) {mv : Move} (hmv : MoveFramed x.module bottom function mv)
    {c : Control} {s' : Machine} (hstep : s.apply x base mv = .running c s') :
    s'.Framed x.module bottom ∧ s'.ControlSound x.module c := by
  cases mv with
  | jump target =>
    cases hstep
    refine ⟨h.jump hf hg hmv, ?_⟩
    show (s.calls.jump target).frames ≠ []
    rw [CallStack.frames_jump target hf]
    exact List.cons_ne_nil _ _
  | enter fr' vs =>
    cases hstep
    obtain ⟨hfr', hreturn⟩ := hmv
    refine ⟨h.enter x vs hfr' fun caller hcaller i target hi => ?_, List.cons_ne_nil _ _⟩
    rw [hf, List.head?_cons, Option.mem_some_iff] at hcaller
    subst hcaller
    exact ⟨function, hg, hreturn i target hi⟩
  | leave v => exact h.return_ hstep

lemma exists_block (h : s.Framed x.module bottom) (hm : x.module.WellFormed)
    (hc : s.ControlSound x.module .start) : ∃ name k, s.currentBlock x = .ok (name, k) ∧
      s.ControlSound x.module (.within name k.statements k.terminator) := by
  obtain ⟨fr, callers, hf⟩ := List.exists_cons_of_ne_nil hc
  obtain ⟨function, hg, -, hblock, -⟩ := h.frames fr (hf ▸ List.mem_cons_self)
  rw [← Arena.isSome_get?, Option.isSome_iff_exists] at hblock
  obtain ⟨k, hk⟩ := hblock
  have hwell := (hm.body hg).block hk
  refine ⟨fr.block, k, ?_, fr, callers, function, hf, hg, hwell.actions, hwell.transfer⟩
  rw [currentBlock_eq (CallStack.top?_eq hf) hg, hk]

lemma step_within (h : s.Framed x.module 0) (hm : x.module.WellFormed) {name : BlockId}
    {rest : List Statement} {t : Terminator} (hc : s.ControlSound x.module (.within name rest t))
    {c : Control} {s' : Machine} (hstep : s.step x base (.within name rest t) = .running c s') :
    s'.Framed x.module 0 ∧ s'.ControlSound x.module c := by
  cases hlimit : x.config.exceeded? (s.steps + 1) with
  | some limit =>
    rw [step_of_exceeded hlimit] at hstep
    cases hstep
  | none =>
    cases rest with
    | cons st rest =>
      have hkept : ∀ s' : Machine, s'.calls = s.calls →
          s'.Framed x.module 0 ∧ s'.ControlSound x.module (.within name rest t) :=
        fun s' hs' => ⟨h.of_calls_eq hs', hc.tail hs'⟩
      rw [step_cons hlimit] at hstep
      split at hstep
      · cases hstep
      · cases hstep
        exact hkept _ rfl
      · cases hstep
        exact hkept _ rfl
    | nil =>
      obtain ⟨fr, callers, function, hf, hg, -, ht⟩ := hc
      rw [step_nil hlimit] at hstep
      split at hstep
      · cases hstep
      · next mv hmv =>
        have hcounted : (s.counted name (.inr t.transfer)).Framed x.module 0 := h.of_calls_eq rfl
        exact hcounted.apply hf hg (moveFramed_of_move hm (Nat.zero_le _) ht hmv) hstep

/-- A step that goes on keeps the frames sound, and has code in front of it. -/
lemma step (h : s.Framed x.module 0) (hm : x.module.WellFormed) {c c' : Control} {s' : Machine}
    (hc : s.ControlSound x.module c) (hstep : s.step x base c = .running c' s') :
    s'.Framed x.module 0 ∧ s'.ControlSound x.module c' := by
  cases c with
  | within name rest t => exact h.step_within hm hc hstep
  | start =>
    obtain ⟨name, k, hblock, hwithin⟩ := h.exists_block hm hc
    rw [step_start_of_ok hblock] at hstep
    exact h.step_within hm hwithin hstep

end Steps

end Framed

end BlockIR.Machine
