import BlockIR.Proofs.Machine.Framed
import BlockIR.Proofs.Machine.Raise
import BlockIR.Proofs.Machine.StepLimit

/-!
# Runs without drops

There is no heap, so all that a drop does is to take a step. The run of a module without its drops goes through
the points of the run with them: it waits where the other run carries out a drop, and otherwise both make the
same step.
-/

namespace BlockIR

def Action.isDrop : Action → Bool
  | assign _ _ => false
  | drop _ _ => true

/-- A drop is carried out. -/
def Event.isDrop : Event → Bool
  | executing _ (.inl a) => a.isDrop
  | _ => false

/-- The statements that are not drops. -/
def withoutDrops (rest : List Statement) : List Statement := rest.filter (!·.action.isDrop)

def Block.withoutDrops (k : Block) : Block := { k with statements := BlockIR.withoutDrops k.statements }

def Body.withoutDrops (b : Body) : Body := { b with blocks := b.blocks.mapEntries fun _ => Block.withoutDrops }

def Function.withoutDrops (f : Function) : Function := { f with body := f.body.withoutDrops }

/-- The module with every drop deleted from every block. -/
def Module.withoutDrops (m : Module) : Module :=
  { m with functions := m.functions.mapEntries fun _ => Function.withoutDrops }

lemma Module.get?_withoutDrops (m : Module) (f : FuncId) :
    m.withoutDrops.get? f = (m.get? f).map Function.withoutDrops := Arena.get?_mapEntries _ _ _

/-- The same point of a run, in code without drops. -/
inductive Control.Pairs : Control → Control → Prop
  | start : Pairs .start .start
  | within (name : BlockId) (rest : List Statement) (t : Terminator) :
      Pairs (.within name rest t) (.within name (withoutDrops rest) t)

namespace Machine

/-- How many drops were carried out, of what is recorded. -/
def drops (s : Machine) : Nat := s.events.countP Event.isDrop

/-- The machine after some steps, and the one after the same steps without the drops among them. -/
structure Matches (s t : Machine) : Prop where
  same : SameStacks s t
  logged : s.log.isSome ∧ t.log.isSome
  events : t.events = s.events.filter (!·.isDrop)
  steps : s.steps = t.steps + s.drops

section SameStacks

variable {s t : Machine}

lemma SameStacks.write?_eq (h : SameStacks s t) (a : Action) : t.write? a = s.write? a := by
  obtain ⟨calls, values, steps, log⟩ := s
  obtain ⟨rfl : t.calls = calls, rfl : t.values = values⟩ := h
  rfl

lemma SameStacks.called_eq (h : SameStacks s t) (p : Place) (callee : Operand) (args : List Operand) :
    t.called p callee args = s.called p callee args := by
  obtain ⟨calls, values, steps, log⟩ := s
  obtain ⟨rfl : t.calls = calls, rfl : t.values = values⟩ := h
  rfl

lemma SameStacks.newFrame_eq (h : SameStacks s t) (m : Module) (c : Config) (f : FuncId) (args : List Value)
    (returnTo : Option (Nat × BlockId)) :
    t.newFrame ⟨m.withoutDrops, c⟩ f args returnTo = s.newFrame ⟨m, c⟩ f args returnTo := by
  have hdepth : t.depth = s.depth := congrArg CallStack.depth h.calls
  simp only [newFrame, m.get?_withoutDrops, hdepth, h.values]
  cases m.get? f <;> rfl

lemma SameStacks.move_eq (h : SameStacks s t) (m : Module) (c : Config) (tr : Transfer) :
    t.move ⟨m.withoutDrops, c⟩ tr = s.move ⟨m, c⟩ tr := by
  cases tr with
  | call p callee args target =>
    simp only [move, callMove_eq_called, h.called_eq, h.newFrame_eq m c]
  | _ =>
    obtain ⟨calls, values, steps, log⟩ := s
    obtain ⟨rfl : t.calls = calls, rfl : t.values = values⟩ := h
    rfl

lemma SameStacks.currentBlock_eq (h : SameStacks s t) {m : Module} {c : Config} {name : BlockId} {k : Block}
    (hk : s.currentBlock ⟨m, c⟩ = .ok (name, k)) :
    t.currentBlock ⟨m.withoutDrops, c⟩ = .ok (name, k.withoutDrops) := by
  unfold currentBlock at hk ⊢
  rw [h.calls]
  split at hk
  · cases hk
  · next fr htop =>
    split at hk
    · cases hk
    · next function hfunction =>
      split at hk
      · cases hk
      · next hb =>
        cases hk
        have hblock : function.withoutDrops.body.blocks.get? fr.block = some k.withoutDrops := by
          simp only [Function.withoutDrops, Body.withoutDrops, Arena.get?_mapEntries, hb, Option.map_some]
        have hget : m.withoutDrops.get? fr.func = some function.withoutDrops := by
          rw [Module.get?_withoutDrops, hfunction, Option.map_some]
        simp only [hget, hblock]

end SameStacks

namespace Matches

variable {s t : Machine}

lemma of_eq (h : s.Matches t) {s' t' : Machine} (hs : SameStacks s' t') (hlog : s'.log = s.log)
    (hlog' : t'.log = t.log) (hsteps : s'.steps = s.steps) (hsteps' : t'.steps = t.steps) :
    s'.Matches t' := by
  refine ⟨hs, ?_, ?_, ?_⟩
  · rw [hlog, hlog']
    exact h.logged
  · simpa only [Machine.events, hlog, hlog'] using h.events
  · simpa only [drops, Machine.events, hlog, hsteps, hsteps'] using h.steps

lemma record (h : s.Matches t) {e : Event} (he : e.isDrop = false) : (s.record e).Matches (t.record e) := by
  refine ⟨⟨h.same.calls, h.same.values⟩, ?_, ?_, ?_⟩
  · rw [isSome_log_record, isSome_log_record]
    exact h.logged
  · rw [events_record h.logged.1, events_record h.logged.2, h.events, List.filter_append]
    simp [he]
  · have hdrops : (s.record e).drops = s.drops := by
      simp [drops, events_record h.logged.1, he]
    rw [record_steps, record_steps, hdrops, h.steps]

lemma counted (h : s.Matches t) (name : BlockId) (code : Action ⊕ Transfer)
    (hcode : (Event.executing name code).isDrop = false) :
    (s.counted name code).Matches (t.counted name code) := by
  have hnext : Matches { s with steps := s.steps + 1 } { t with steps := t.steps + 1 } := by
    refine ⟨⟨h.same.calls, h.same.values⟩, h.logged, h.events, ?_⟩
    show s.steps + 1 = t.steps + 1 + s.drops
    rw [h.steps]
    omega
  exact hnext.record hcode

lemma counted_drop (h : s.Matches t) (name : BlockId) {a : Action} (ha : a.isDrop) :
    (s.counted name (.inl a)).Matches t := by
  have he : (Event.executing name (.inl a)).isDrop = true := ha
  have hevents : (s.counted name (.inl a)).events = s.events ++ [.executing name (.inl a)] :=
    events_record (s := { s with steps := s.steps + 1 }) h.logged.1 _
  refine ⟨⟨h.same.calls, h.same.values⟩, ⟨?_, h.logged.2⟩, ?_, ?_⟩
  · rw [Machine.counted, isSome_log_record]
    exact h.logged.1
  · rw [hevents, List.filter_append, h.events]
    simp [he]
  · have hdrops : (s.counted name (.inl a)).drops = s.drops + 1 := by
      simp [drops, hevents, he]
    show s.steps + 1 = t.steps + (s.counted name (.inl a)).drops
    rw [hdrops, h.steps]
    omega

lemma writeSlot (h : s.Matches t) (i : Nat) (v : Value) : (s.writeSlot i v).Matches (t.writeSlot i v) := by
  refine h.of_eq ⟨h.same.calls, ?_⟩ rfl rfl rfl rfl
  rw [writeSlot_values, writeSlot_values, h.same.values]

lemma jump (h : s.Matches t) (b : BlockId) : (s.jump b).Matches (t.jump b) := by
  refine h.of_eq ⟨?_, h.same.values⟩ rfl rfl rfl rfl
  rw [jump_calls, jump_calls, h.same.calls]

lemma truncate (h : s.Matches t) (depth size : Nat) :
    (s.truncate depth size).Matches (t.truncate depth size) := by
  refine h.of_eq ⟨?_, ?_⟩ rfl rfl rfl rfl
  · simp only [Machine.truncate, h.same.calls]
  · simp only [Machine.truncate, h.same.values]

lemma nameOf_withoutDrops (m : Module) (c : Config) (f : FuncId) :
    nameOf ⟨m.withoutDrops, c⟩ f = nameOf ⟨m, c⟩ f := by
  simp only [nameOf, m.get?_withoutDrops]
  cases m.get? f <;> rfl

variable (m : Module) (c : Config)

lemma enter (h : s.Matches t) (fr : Frame) (args : List Value) :
    (s.enter ⟨m, c⟩ fr args).Matches (t.enter ⟨m.withoutDrops, c⟩ fr args) := by
  have hdepth : t.depth = s.depth := congrArg CallStack.depth h.same.calls
  have hpushed : Matches { s with calls := s.calls.push fr, values := s.values ++ fr.initialSlots args }
      { t with calls := t.calls.push fr, values := t.values ++ fr.initialSlots args } := by
    refine h.of_eq ⟨?_, ?_⟩ rfl rfl rfl rfl
    · simp only [h.same.calls]
    · simp only [h.same.values]
  simp only [Machine.enter, nameOf_withoutDrops, hdepth]
  exact hpushed.record (e := .pushed _ _ _) rfl

lemma leave (h : s.Matches t) (fr : Frame) :
    (s.leave ⟨m, c⟩ fr).Matches (t.leave ⟨m.withoutDrops, c⟩ fr) := by
  have hdepth : t.depth = s.depth := congrArg CallStack.depth h.same.calls
  have hpopped : Matches { s with calls := s.calls.pop, values := s.values.shrink fr.offset }
      { t with calls := t.calls.pop, values := t.values.shrink fr.offset } := by
    refine h.of_eq ⟨?_, ?_⟩ rfl rfl rfl rfl
    · simp only [h.same.calls]
    · simp only [h.same.values]
  simp only [Machine.leave, nameOf_withoutDrops, hdepth]
  exact hpopped.record (e := .popped _ _) rfl

end Matches

/-- A step with drops in the code, and the same step without them. -/
inductive Paired : Progress → Progress → Prop
  | running {c c' : Control} {s t : Machine} (hc : c.Pairs c') (h : s.Matches t) :
      Paired (.running c s) (.running c' t)
  | returned {v : Value} {s t : Machine} (h : s.Matches t) : Paired (.returned v s) (.returned v t)
  | failed {e : Fault} {s t : Machine} (h : s.Matches t) : Paired (.failed e s) (.failed e t)

section Steps

variable {m : Module} {depth base : Nat} {s t : Machine}

lemma Matches.return_ (h : s.Matches t) (m : Module) (c : Config) (base : Nat) (v : Value) :
    Paired (s.return_ ⟨m, c⟩ base v) (t.return_ ⟨m.withoutDrops, c⟩ base v) := by
  unfold Machine.return_
  rw [h.same.calls]
  cases s.calls.top? with
  | none => exact .failed h
  | some fr =>
    have hleave := h.leave m c fr
    have hdepth : (t.leave ⟨m.withoutDrops, c⟩ fr).depth = (s.leave ⟨m, c⟩ fr).depth :=
      congrArg CallStack.depth hleave.same.calls
    dsimp only
    rw [hdepth]
    split
    · split
      · exact .running .start ((hleave.writeSlot _ v).jump _)
      · exact .returned hleave
    · exact .returned hleave

lemma Matches.apply (h : s.Matches t) (m : Module) (c : Config) (base : Nat) (mv : Move) :
    Paired (s.apply ⟨m, c⟩ base mv) (t.apply ⟨m.withoutDrops, c⟩ base mv) := by
  cases mv with
  | jump b => exact .running .start (h.jump b)
  | enter fr args => exact .running .start (h.enter m c fr args)
  | leave v => exact h.return_ m c base v

lemma Matches.step (h : s.Matches t) (m : Module) (depth base : Nat) (name : BlockId) {rest : List Statement}
    (hfront : ∀ st ∈ rest.head?, st.action.isDrop = false) (tr : Terminator) :
    Paired (s.step ⟨m, ⟨depth, none⟩⟩ base (.within name rest tr))
      (t.step ⟨m.withoutDrops, ⟨depth, none⟩⟩ base (.within name (withoutDrops rest) tr)) := by
  cases rest with
  | nil =>
    have hcounted := h.counted name (.inr tr.transfer) rfl
    rw [withoutDrops, List.filter_nil, step_nil rfl, step_nil rfl, hcounted.same.move_eq]
    cases (s.counted name (.inr tr.transfer)).move ⟨m, ⟨depth, none⟩⟩ tr.transfer with
    | error e => exact .failed hcounted
    | ok mv => exact hcounted.apply m _ base mv
  | cons st rest =>
    have hst : st.action.isDrop = false := hfront st rfl
    have hcounted := h.counted name (.inl st.action) hst
    have hkept : withoutDrops (st :: rest) = st :: withoutDrops rest := by
      simp only [withoutDrops, List.filter_cons, hst, Bool.not_false, if_true]
    rw [hkept, step_cons rfl, step_cons rfl, hcounted.same.write?_eq]
    split
    · exact .failed hcounted
    · exact .running (.within name rest tr) hcounted
    · next i v _ => exact .running (.within name rest tr) (hcounted.writeSlot i v)

lemma step_drop (depth base : Nat) (hf : s.Framed m 0) {name : BlockId} {st : Statement}
    {rest : List Statement} {tr : Terminator} (hc : s.ControlSound m (.within name (st :: rest) tr))
    (hst : st.action.isDrop) :
    s.step ⟨m, ⟨depth, none⟩⟩ base (.within name (st :: rest) tr) =
      .running (.within name rest tr) (s.counted name (.inl st.action)) := by
  obtain ⟨fr, callers, function, hframes, hg, hrest, -⟩ := hc
  have hwell := hrest st List.mem_cons_self
  rw [step_cons rfl]
  cases hact : st.action with
  | assign p r =>
    rw [hact] at hst
    cases hst
  | drop k p =>
    rw [hact] at hwell
    have hcounted : (s.counted name (.inl (.drop k p))).Framed m 0 := hf.of_calls_eq rfl
    obtain ⟨i, hi, -⟩ := hcounted.exists_slot hframes hg hwell
    have hwrite : (s.counted name (.inl (.drop k p))).write? (.drop k p) = .ok none := by
      rw [write?, hi]
      rfl
    rw [hwrite]

end Steps

/-- The code in front of a run. -/
inductive Ahead (x : Setting) (s : Machine) : Control → BlockId → List Statement → Terminator → Prop
  | start {name : BlockId} {k : Block} (h : s.currentBlock x = .ok (name, k)) :
      Ahead x s .start name k.statements k.terminator
  | within (name : BlockId) (rest : List Statement) (t : Terminator) :
      Ahead x s (.within name rest t) name rest t

lemma Ahead.step_eq {x : Setting} {s : Machine} {c : Control} {name : BlockId} {rest : List Statement}
    {t : Terminator} (h : Ahead x s c name rest t) (base : Nat) :
    s.step x base c = s.step x base (.within name rest t) := by
  cases h with
  | start h => exact step_start_of_ok h
  | within name rest t => rfl

lemma Ahead.isSome_pending? {x : Setting} {s : Machine} {c : Control} {name : BlockId} {rest : List Statement}
    {t : Terminator} (h : Ahead x s c name rest t) : (s.pending? x c).isSome := by
  cases h with
  | start h =>
    rw [pending?, h]
    rfl
  | within name rest t => rfl

/-- A point of a run of a verified module, and the point of the run without drops that is the same but for the
drops in front. -/
structure Follows (m : Module) (depth : Nat) (c : Control) (s : Machine) (c' : Control) (t : Machine) :
    Prop where
  same : s.Matches t
  framed : s.Framed m 0
  code : ∃ name rest tr, Ahead ⟨m, ⟨depth, none⟩⟩ s c name rest tr ∧
    s.ControlSound m (.within name rest tr) ∧
    Ahead ⟨m.withoutDrops, ⟨depth, none⟩⟩ t c' name (withoutDrops rest) tr

namespace Follows

variable {m : Module} {depth base : Nat} {c c' c₁ c₁' : Control} {s t s₁ t₁ : Machine}

lemma of_pairs (hm : m.WellFormed) (h : s.Matches t) (hf : s.Framed m 0) (hc : s.ControlSound m c)
    (hp : c.Pairs c') : Follows m depth c s c' t := by
  cases hp with
  | start =>
    obtain ⟨name, k, hk, hwithin⟩ := Framed.exists_block (x := ⟨m, ⟨depth, none⟩⟩) hf hm hc
    exact ⟨h, hf, name, _, _, .start hk, hwithin, .start (h.same.currentBlock_eq hk)⟩
  | within name rest tr => exact ⟨h, hf, name, rest, tr, .within name rest tr, hc, .within _ _ _⟩

/-- The run with drops carries out one that is in front while the other one waits, or both make the same step. -/
lemma drop_or_paired (h : s.Matches t) (hf : s.Framed m 0) {name : BlockId} {rest : List Statement}
    {tr : Terminator} (hs : Ahead ⟨m, ⟨depth, none⟩⟩ s c name rest tr)
    (hc : s.ControlSound m (.within name rest tr))
    (ht : Ahead ⟨m.withoutDrops, ⟨depth, none⟩⟩ t c' name (withoutDrops rest) tr) (base : Nat) :
    (∃ st rest' s₁, rest = st :: rest' ∧
      s.step ⟨m, ⟨depth, none⟩⟩ base c = .running (.within name rest' tr) s₁ ∧ s₁.Matches t ∧
      s₁.Framed m 0 ∧ s₁.ControlSound m (.within name rest' tr) ∧
      Ahead ⟨m.withoutDrops, ⟨depth, none⟩⟩ t c' name (withoutDrops rest') tr) ∨
      Paired (s.step ⟨m, ⟨depth, none⟩⟩ base c) (t.step ⟨m.withoutDrops, ⟨depth, none⟩⟩ base c') := by
  rw [hs.step_eq, ht.step_eq]
  cases rest with
  | nil => exact .inr (h.step m depth base name (fun st hst => by cases hst) tr)
  | cons st rest =>
    cases hst : st.action.isDrop with
    | false => exact .inr (h.step m depth base name (by simpa using hst) tr)
    | true =>
      have hkept : withoutDrops (st :: rest) = withoutDrops rest := by
        simp only [withoutDrops, List.filter_cons, hst, Bool.not_true, Bool.false_eq_true, if_false]
      have hstep := step_drop depth base hf hc hst
      exact .inl ⟨st, rest, _, rfl, hstep, h.counted_drop name hst, hf.of_calls_eq rfl, hc.tail rfl, hkept ▸ ht⟩

lemma step (h : Follows m depth c s c' t) (base : Nat) :
    (∃ c₁ s₁, s.step ⟨m, ⟨depth, none⟩⟩ base c = .running c₁ s₁ ∧ Follows m depth c₁ s₁ c' t) ∨
      Paired (s.step ⟨m, ⟨depth, none⟩⟩ base c) (t.step ⟨m.withoutDrops, ⟨depth, none⟩⟩ base c') := by
  obtain ⟨hsame, hframed, name, rest, tr, hs, hc, ht⟩ := h
  rcases drop_or_paired hsame hframed hs hc ht base with
    ⟨st, rest', s₁, -, hstep, hsame₁, hframed₁, hc₁, ht₁⟩ | hp
  · exact .inl ⟨_, s₁, hstep, hsame₁, hframed₁, name, rest', tr, .within name rest' tr, hc₁, ht₁⟩
  · exact .inr hp

/-- The run with drops comes to a point from which both runs make the same step. -/
lemma catch_up (h : Follows m depth c s c' t) (base : Nat) :
    ∃ c₁ s₁, Reaches ⟨m, ⟨depth, none⟩⟩ base c s c₁ s₁ ∧ Follows m depth c₁ s₁ c' t ∧
      Paired (s₁.step ⟨m, ⟨depth, none⟩⟩ base c₁) (t.step ⟨m.withoutDrops, ⟨depth, none⟩⟩ base c') := by
  obtain ⟨hsame, hframed, name, rest, tr, hs, hc, ht⟩ := h
  -- The drops in front are carried out one after another, so this is by induction on the code.
  induction rest generalizing c s with
  | nil =>
    rcases drop_or_paired hsame hframed hs hc ht base with ⟨_, _, _, hnil, -⟩ | hp
    · cases hnil
    · exact ⟨c, s, .refl c s, ⟨hsame, hframed, name, [], tr, hs, hc, ht⟩, hp⟩
  | cons st rest ih =>
    rcases drop_or_paired hsame hframed hs hc ht base with
      ⟨_, _, s₁, hrest, hstep, hsame₁, hframed₁, hc₁, ht₁⟩ | hp
    · obtain ⟨rfl, rfl⟩ := List.cons.inj hrest
      obtain ⟨c₂, s₂, hreach, hnext⟩ := ih hsame₁ hframed₁ (.within name rest tr) hc₁ ht₁
      exact ⟨c₂, s₂, hreach.head hstep, hnext⟩
    · exact ⟨c, s, .refl c s, ⟨hsame, hframed, name, st :: rest, tr, hs, hc, ht⟩, hp⟩

lemma of_paired (h : Follows m depth c s c' t) (hm : m.WellFormed)
    (hs : s.step ⟨m, ⟨depth, none⟩⟩ base c = .running c₁ s₁)
    (hp : Paired (.running c₁ s₁) (t.step ⟨m.withoutDrops, ⟨depth, none⟩⟩ base c')) :
    ∃ c₁' t₁, t.step ⟨m.withoutDrops, ⟨depth, none⟩⟩ base c' = .running c₁' t₁ ∧
      Follows m depth c₁ s₁ c₁' t₁ := by
  obtain ⟨-, hframed, name, rest, tr, hahead, hc, -⟩ := h
  rw [hahead.step_eq] at hs
  obtain ⟨hframed₁, hc₁⟩ := Framed.step (x := ⟨m, ⟨depth, none⟩⟩) hframed hm hc hs
  generalize t.step ⟨m.withoutDrops, ⟨depth, none⟩⟩ base c' = r at hp
  cases hp with
  | running hpairs hsame₁ => exact ⟨_, _, rfl, of_pairs hm hsame₁ hframed₁ hc₁ hpairs⟩

lemma of_reaches (h : Follows m depth c s c' t) (hm : m.WellFormed)
    (hr : Reaches ⟨m, ⟨depth, none⟩⟩ base c s c₁ s₁) :
    ∃ c₁' t₁, Reaches ⟨m.withoutDrops, ⟨depth, none⟩⟩ base c' t c₁' t₁ ∧ Follows m depth c₁ s₁ c₁' t₁ := by
  induction hr with
  | refl => exact ⟨c', t, .refl c' t, h⟩
  | tail _ hstep ih =>
    obtain ⟨c₁', t₁, hr', h₁⟩ := ih h
    rcases h₁.step base with ⟨c₂, s₂, hstep', h₂⟩ | hp
    · cases hstep.symm.trans hstep'
      exact ⟨c₁', t₁, hr', h₂⟩
    · rw [hstep] at hp
      obtain ⟨c₂', t₂, hstep', h₂⟩ := h₁.of_paired hm hstep hp
      exact ⟨c₂', t₂, hr'.tail hstep', h₂⟩

lemma of_reaches_withoutDrops (h : Follows m depth c s c' t) (hm : m.WellFormed)
    (hr : Reaches ⟨m.withoutDrops, ⟨depth, none⟩⟩ base c' t c₁' t₁) :
    ∃ c₁ s₁, Reaches ⟨m, ⟨depth, none⟩⟩ base c s c₁ s₁ ∧ Follows m depth c₁ s₁ c₁' t₁ := by
  induction hr with
  | refl => exact ⟨c, s, .refl c s, h⟩
  | tail _ hstep' ih =>
    obtain ⟨c₁, s₁, hr, h₁⟩ := ih h
    obtain ⟨c₂, s₂, hcaught, h₂, hp⟩ := h₁.catch_up base
    rw [hstep'] at hp
    generalize hstep : s₂.step ⟨m, ⟨depth, none⟩⟩ base c₂ = r at hp
    cases hp with
    | running hpairs hsame =>
      obtain ⟨c₃', t₃, heq, h₃⟩ := h₂.of_paired hm hstep (hstep'.symm ▸ .running hpairs hsame)
      cases hstep'.symm.trans heq
      exact ⟨_, _, (hr.trans hcaught).tail hstep, h₃⟩

lemma stop (h : Follows m depth c s c' t) {o : Outcome} {s' : Machine}
    (hstop : (s.step ⟨m, ⟨depth, none⟩⟩ base c).stop? = some (o, s')) :
    ∃ t', (t.step ⟨m.withoutDrops, ⟨depth, none⟩⟩ base c').stop? = some (o, t') ∧ s'.Matches t' := by
  rcases h.step base with ⟨c₁, s₁, hstep, -⟩ | hp
  · rw [hstep] at hstop
    cases hstop
  · generalize s.step ⟨m, ⟨depth, none⟩⟩ base c = r at hp hstop
    generalize t.step ⟨m.withoutDrops, ⟨depth, none⟩⟩ base c' = r' at hp
    cases hp with
    | running => cases hstop
    | returned hsame =>
      cases hstop
      exact ⟨_, rfl, hsame⟩
    | failed hsame =>
      cases hstop
      exact ⟨_, rfl, hsame⟩

lemma exists_stop (h : Follows m depth c s c' t) {o : Outcome} {t' : Machine}
    (hstop : (t.step ⟨m.withoutDrops, ⟨depth, none⟩⟩ base c').stop? = some (o, t')) :
    ∃ c₁ s₁ s', Reaches ⟨m, ⟨depth, none⟩⟩ base c s c₁ s₁ ∧
      (s₁.step ⟨m, ⟨depth, none⟩⟩ base c₁).stop? = some (o, s') := by
  obtain ⟨c₁, s₁, hreach, -, hp⟩ := h.catch_up base
  refine ⟨c₁, s₁, ?_⟩
  generalize s₁.step ⟨m, ⟨depth, none⟩⟩ base c₁ = r at hp ⊢
  generalize t.step ⟨m.withoutDrops, ⟨depth, none⟩⟩ base c' = r' at hp hstop
  cases hp with
  | running => cases hstop
  | returned =>
    cases hstop
    exact ⟨_, hreach, rfl⟩
  | failed =>
    cases hstop
    exact ⟨_, hreach, rfl⟩

end Follows

section Calls

variable {m : Module} {depth : Nat} {f : FuncId} {args : List Value} {o : Outcome} {s t : Machine}

lemma matches_watched : watched.Matches watched := ⟨.refl _, ⟨rfl, rfl⟩, rfl, rfl⟩

lemma Matches.unwind (h : s.Matches t) (depth size : Nat) (o : Outcome) :
    (unwind depth size (o, s)).2.Matches (unwind depth size (o, t)).2 := by
  cases o with
  | returned v => exact h
  | failed e => exact h.truncate depth size
  | unfinished => exact h.truncate depth size

lemma follows_of_newFrame (hm : m.WellFormed) {fr : Frame}
    (hnew : watched.newFrame ⟨m, ⟨depth, none⟩⟩ f args none = .ok fr) :
    Follows m depth .start (watched.enter ⟨m, ⟨depth, none⟩⟩ fr args) .start
      (watched.enter ⟨m.withoutDrops, ⟨depth, none⟩⟩ fr args) := by
  have hbegin : watched.Framed m 0 := .of_frames_nil rfl
  have hfr : FrameSound m 0 fr := (frameSound_of_newFrame hm (Nat.zero_le _) hnew).1
  have hframed := hbegin.enter ⟨m, ⟨depth, none⟩⟩ args hfr (fun caller hcaller => by cases hcaller)
  exact .of_pairs hm (matches_watched.enter m _ fr args) hframed (List.cons_ne_nil _ _) .start

/-- A call that comes to an end does so without the drops as well, and matches at the end. Both need no more
steps than they count. -/
lemma exists_matches_of_completes (hm : m.WellFormed) {s' : Machine}
    (h : watched.Completes ⟨m, ⟨depth, none⟩⟩ f args o s') :
    ∃ t', s'.Matches t' ∧
      (∀ fuel, s'.steps ≤ fuel → watched.callFor ⟨m, ⟨depth, none⟩⟩ fuel f args = (o, s')) ∧
      ∀ fuel, t'.steps ≤ fuel → watched.callFor ⟨m.withoutDrops, ⟨depth, none⟩⟩ fuel f args = (o, t') := by
  obtain ⟨ho, fuel, hcall⟩ := h
  have hframe := (SameStacks.refl watched).newFrame_eq m ⟨depth, none⟩ f args none
  cases hnew : watched.newFrame ⟨m, ⟨depth, none⟩⟩ f args none with
  | error e =>
    have hrefused := callFor_of_refused (s := watched) hnew
    have hrefused' := callFor_of_refused (s := watched) (hframe.trans hnew)
    cases (hrefused fuel).symm.trans hcall
    exact ⟨watched, matches_watched, fun fuel _ => hrefused fuel, fun fuel _ => hrefused' fuel⟩
  | ok fr =>
    obtain ⟨c₁, s₁, s₂, ⟨fr', hnew', hreach⟩, -, hstop, rfl⟩ := exists_stop_of_callFor (s := watched) hnew hcall ho
    cases hnew.symm.trans hnew'
    obtain ⟨c₁', t₁, hreach', hfollows⟩ := (follows_of_newFrame hm hnew).of_reaches hm hreach
    obtain ⟨t₂, hstop', hmatch⟩ := hfollows.stop hstop
    obtain ⟨name, rest, tr, hs, -, ht⟩ := hfollows.code
    have hsteps : s₂.steps = s₁.steps + 1 := (steps_of_stop hstop rfl).2 hs.isSome_pending?
    have hsteps' : t₂.steps = t₁.steps + 1 := (steps_of_stop hstop' rfl).2 ht.isSome_pending?
    have hduring : watched.During ⟨m, ⟨depth, none⟩⟩ f args c₁ s₁ := ⟨fr, hnew, hreach⟩
    have hduring' : watched.During ⟨m.withoutDrops, ⟨depth, none⟩⟩ f args c₁' t₁ :=
      ⟨fr, hframe.trans hnew, hreach'⟩
    have hbegin : watched.beginCall.steps = 0 := rfl
    refine ⟨_, hmatch.unwind 0 0 o, fun fuel hfuel => ?_, fun fuel hfuel => ?_⟩
    · have hle : s₂.steps ≤ fuel := (unwind_steps 0 0 (o, s₂)).symm.trans_le hfuel
      exact hduring.callFor_of_stop hstop (by omega)
    · have hle : t₂.steps ≤ fuel := (unwind_steps 0 0 (o, t₂)).symm.trans_le hfuel
      exact hduring'.callFor_of_stop hstop' (by omega)

lemma exists_completes_of_withoutDrops (hm : m.WellFormed) {t' : Machine}
    (h : watched.Completes ⟨m.withoutDrops, ⟨depth, none⟩⟩ f args o t') :
    ∃ s', watched.Completes ⟨m, ⟨depth, none⟩⟩ f args o s' := by
  obtain ⟨ho, fuel, hcall⟩ := h
  have hframe := (SameStacks.refl watched).newFrame_eq m ⟨depth, none⟩ f args none
  cases hnew : watched.newFrame ⟨m, ⟨depth, none⟩⟩ f args none with
  | error e =>
    cases (callFor_of_refused (s := watched) (hframe.trans hnew) fuel).symm.trans hcall
    exact ⟨watched, ho, fuel, callFor_of_refused (s := watched) hnew fuel⟩
  | ok fr =>
    obtain ⟨c₁', t₁, t₂, ⟨fr', hnew', hreach'⟩, -, hstop', rfl⟩ :=
      exists_stop_of_callFor (s := watched) (hframe.trans hnew) hcall ho
    cases (hframe.trans hnew).symm.trans hnew'
    obtain ⟨c₁, s₁, hreach, hfollows⟩ := (follows_of_newFrame hm hnew).of_reaches_withoutDrops hm hreach'
    obtain ⟨c₂, s₂, s₃, hcaught, hstop⟩ := hfollows.exists_stop hstop'
    have hduring : watched.During ⟨m, ⟨depth, none⟩⟩ f args c₂ s₂ := ⟨fr, hnew, hreach.trans hcaught⟩
    have hlt : s₂.steps < watched.beginCall.steps + (s₂.steps + 1) := Nat.lt_add_left _ (Nat.lt_succ_self _)
    exact ⟨_, ho, _, hduring.callFor_of_stop hstop hlt⟩

/-- Deleting the drops of a verified module changes no call. A call comes to an end with an outcome if and only
if it does so without the drops; it records the same events but for the drops, leaves the same stacks, and takes
as many steps more as it carries out drops. So while the steps can be counted, a call on any machine without
frames gives the same value or the same fault, and counts the drops in addition. -/
theorem withoutDrops_preserves_calls (hv : m.verifies) (depth : Nat) (f : FuncId) (args : List Value)
    (o : Outcome) :
    ((∃ s', watched.Completes ⟨m, ⟨depth, none⟩⟩ f args o s') ↔
      ∃ t', watched.Completes ⟨m.withoutDrops, ⟨depth, none⟩⟩ f args o t') ∧
    ∀ s' t', watched.Completes ⟨m, ⟨depth, none⟩⟩ f args o s' →
      watched.Completes ⟨m.withoutDrops, ⟨depth, none⟩⟩ f args o t' →
      SameStacks s' t' ∧ t'.events = s'.events.filter (!·.isDrop) ∧ s'.steps = t'.steps + s'.drops ∧
      (s'.steps < UInt64.size → ∀ s : Machine, s.depth = 0 →
        (s.call ⟨m, ⟨depth, none⟩⟩ f args).1 = resultOf o ∧
        (s.call ⟨m.withoutDrops, ⟨depth, none⟩⟩ f args).1 = resultOf o ∧
        (s.call ⟨m, ⟨depth, none⟩⟩ f args).2.steps =
          (s.call ⟨m.withoutDrops, ⟨depth, none⟩⟩ f args).2.steps + s'.drops) := by
  have hm := Module.verifies_iff_wellFormed.1 hv
  refine ⟨⟨fun ⟨s', hs'⟩ => ?_, fun ⟨t', ht'⟩ => exists_completes_of_withoutDrops hm ht'⟩,
    fun s' t' hs' ht' => ?_⟩
  · obtain ⟨t', -, -, hcall⟩ := exists_matches_of_completes hm hs'
    exact ⟨t', hs'.1, _, hcall _ (Nat.le_refl _)⟩
  · obtain ⟨t₁, hmatch, hcall, hcall'⟩ := exists_matches_of_completes hm hs'
    obtain ⟨-, rfl⟩ := ht'.unique ⟨ht'.1, _, hcall' _ (Nat.le_refl _)⟩
    refine ⟨hmatch.same, hmatch.events, hmatch.steps, fun hlt s hs => ?_⟩
    have hle : s'.steps ≤ Config.maxSteps := Nat.le_sub_one_of_lt hlt
    have hle' : t'.steps ≤ Config.maxSteps := by
      have hsteps := hmatch.steps
      omega
    have hwatched := call_of_callFor (x := ⟨m, ⟨depth, none⟩⟩) (hcall _ hle)
    have hwatched' := call_of_callFor (x := ⟨m.withoutDrops, ⟨depth, none⟩⟩) (hcall' _ hle')
    have same : ∀ x : Setting, (s.call x f args).1 = (watched.call x f args).1 ∧
        (s.call x f args).2.steps = (watched.call x f args).2.steps := by
      intro x
      obtain ⟨hresult, hsteps⟩ := call_fresh x f args s hs
      obtain ⟨hresult', hsteps'⟩ := call_fresh x f args watched rfl
      exact ⟨hresult.trans hresult'.symm, hsteps.trans hsteps'.symm⟩
    rw [(same _).1, (same _).1, (same _).2, (same _).2, hwatched, hwatched']
    exact ⟨rfl, rfl, hmatch.steps⟩

end Calls

end Machine

/-- A module with one function, which adds up the numbers from its argument down to one, with drops of both
kinds on the way. -/
def Module.summation : Module :=
  let body : Body := ⟨1, 1, 1, .ofList [
    ⟨[⟨.assign .result (.use (.int 0)), .none⟩, ⟨.drop .free (.var 0), .none⟩], ⟨.goto ⟨1⟩, .none⟩⟩,
    ⟨[⟨.drop .deep (.temp 0), .none⟩, ⟨.assign (.temp 0) (.binary .lt (.int 0) (.read (.arg 0))), .none⟩],
      ⟨.branch (.read (.temp 0)) ⟨2⟩ ⟨3⟩, .none⟩⟩,
    ⟨[⟨.assign .result (.binary .add (.read .result) (.read (.arg 0))), .none⟩, ⟨.drop .deep .result, .none⟩,
      ⟨.assign (.arg 0) (.binary .sub (.read (.arg 0)) (.int 1)), .none⟩], ⟨.goto ⟨1⟩, .none⟩⟩,
    ⟨[⟨.drop .free (.arg 0), .none⟩], ⟨.ret, .none⟩⟩]⟩
  ((Module.empty "numbers").declare "sum" []).define ⟨0⟩ body

/-- The sum of the numbers up to three takes nine steps less without its drops. -/
theorem Machine.summation_without_drops :
    Module.summation.verifies ∧ Module.summation.withoutDrops ≠ Module.summation ∧
      (fresh.call ⟨.summation, ⟨1, none⟩⟩ ⟨0⟩ [.int 3]).1 = .ok (.int 6) ∧
      (fresh.call ⟨Module.summation.withoutDrops, ⟨1, none⟩⟩ ⟨0⟩ [.int 3]).1 = .ok (.int 6) ∧
      (fresh.call ⟨.summation, ⟨1, none⟩⟩ ⟨0⟩ [.int 3]).2.steps =
        (fresh.call ⟨Module.summation.withoutDrops, ⟨1, none⟩⟩ ⟨0⟩ [.int 3]).2.steps + 9 := by
  have hv : Module.summation.verifies := by decide +kernel
  have hrun : (watched.callFor ⟨.summation, ⟨1, none⟩⟩ 40 ⟨0⟩ [.int 3]).1 = .returned (.int 6) ∧
      (watched.callFor ⟨.summation, ⟨1, none⟩⟩ 40 ⟨0⟩ [.int 3]).2.steps < UInt64.size ∧
      (watched.callFor ⟨.summation, ⟨1, none⟩⟩ 40 ⟨0⟩ [.int 3]).2.drops = 9 := by
    decide +kernel
  rcases hcall : watched.callFor ⟨.summation, ⟨1, none⟩⟩ 40 ⟨0⟩ [.int 3] with ⟨o, s'⟩
  rw [hcall] at hrun
  obtain ⟨rfl : o = .returned (.int 6), hsteps : s'.steps < UInt64.size, hdrops : s'.drops = 9⟩ := hrun
  have hcompletes : watched.Completes ⟨.summation, ⟨1, none⟩⟩ ⟨0⟩ [.int 3] (.returned (.int 6)) s' :=
    ⟨by simp, 40, hcall⟩
  obtain ⟨hiff, hsame⟩ := withoutDrops_preserves_calls hv 1 ⟨0⟩ [.int 3] (.returned (.int 6))
  obtain ⟨t', ht'⟩ := hiff.1 ⟨s', hcompletes⟩
  obtain ⟨-, -, -, hfresh⟩ := hsame s' t' hcompletes ht'
  rw [hdrops] at hfresh
  exact ⟨hv, by decide +kernel, hfresh hsteps fresh rfl⟩

end BlockIR
