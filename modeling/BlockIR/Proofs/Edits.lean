import BlockIR.Draft.Edit
import BlockIR.Proofs.Draft
import Mathlib.Data.List.Basic
import Mathlib.Data.List.Induction

/-!
# What edits draft

Edits go to the block that was switched to last. A draft holds what was appended to each block, in order, and
becomes a body when each block has its terminator.
-/

namespace BlockIR

namespace Edit

/-- The block that an edit switches to. -/
def selected? : Edit → Option BlockId
  | switchTo b => some b
  | _ => none

/-- The statement that an edit appends. -/
def statement? : Edit → Option Statement
  | assign p r pos => some ⟨.assign p r, pos⟩
  | drop kind p pos => some ⟨.drop kind p, pos⟩
  | _ => none

/-- The terminator that an edit appends. The targets of a switch are those of its cases in order, and then the
block for all other values if there is one. -/
def terminator? : Edit → Option Terminator
  | ret pos => some ⟨.ret, pos⟩
  | goto b pos => some ⟨.goto b, pos⟩
  | branch cond onTrue onFalse pos => some ⟨.branch cond onTrue onFalse, pos⟩
  | switch subject cases otherwise pos =>
    some ⟨.switch subject (cases.map (·.1)) (cases.map (·.2) ++ otherwise.toList), pos⟩
  | call dest callee args target pos => some ⟨.call dest callee args target, pos⟩
  | diverge pos => some ⟨.diverge, pos⟩
  | panic b pos => some ⟨.panic b, pos⟩
  | _ => none

/-- Appends to the current block. -/
def Appends (e : Edit) : Prop := e.statement? ≠ none ∨ e.terminator? ≠ none

/-- The block that was switched to last. -/
def current (es : List Edit) : Option BlockId := es.foldl (fun c e => e.selected?.or c) none

/-- How many blocks were created. -/
def created (es : List Edit) : Nat := es.count createBlock

/-- The edits that are made while a block is the current one, if `c` is current before them. -/
def madeIn (b : BlockId) : Option BlockId → List Edit → List Edit
  | _, [] => []
  | c, e :: es => (if c = some b then [e] else []) ++ madeIn b (e.selected?.or c) es

/-- The statements that were appended to a block, in order. -/
def statementsOf (b : BlockId) (es : List Edit) : List Statement := (madeIn b none es).filterMap statement?

/-- The terminators that were appended to a block, in order. -/
def terminatorsOf (b : BlockId) (es : List Edit) : List Terminator := (madeIn b none es).filterMap terminator?

/-- An edit that is no misuse after others. Arguments exist, blocks were created before they are named, and what is
appended goes to a block that was switched to and has no terminator. -/
def Allowed (args : UInt32) (before : List Edit) : Edit → Prop
  | arg i => i < args
  | declareVar | declareTemp | createBlock => True
  | switchTo b | isTerminated b => Key.toNat b < created before
  | assign .. | drop .. | ret .. | goto .. | branch .. | switch .. | call .. | diverge .. | panic .. =>
    ∃ b ∈ current before, terminatorsOf b before = []

instance (args : UInt32) (before : List Edit) (e : Edit) : Decidable (e.Allowed args before) :=
  match e with
  | arg i => inferInstanceAs (Decidable (i < args))
  | declareVar | declareTemp | createBlock => .isTrue trivial
  | switchTo b | isTerminated b => inferInstanceAs (Decidable (Key.toNat b < created before))
  | assign .. | drop .. | ret .. | goto .. | branch .. | switch .. | call .. | diverge .. | panic .. =>
    inferInstanceAs (Decidable (∃ b ∈ current before, terminatorsOf b before = []))

/-- No edit is a misuse after those before it. -/
def Legal (args : UInt32) (es : List Edit) : Prop := ∀ i, (h : i < es.length) → es[i].Allowed args (es.take i)

instance (args : UInt32) (es : List Edit) : Decidable (Legal args es) :=
  inferInstanceAs (Decidable (∀ i, (h : i < es.length) → es[i].Allowed args (es.take i)))

section Concat

variable {args : UInt32} {es : List Edit} {e : Edit} {b : BlockId}

lemma current_concat : current (es ++ [e]) = e.selected?.or (current es) := by
  rw [current, List.foldl_append]
  rfl

lemma madeIn_append (c : Option BlockId) (es fs : List Edit) :
    madeIn b c (es ++ fs) = madeIn b c es ++ madeIn b (es.foldl (fun c e => e.selected?.or c) c) fs := by
  induction es generalizing c with
  | nil => rfl
  | cons e es ih => rw [List.cons_append, madeIn, madeIn, ih, List.foldl_cons, List.append_assoc]

lemma madeIn_concat : madeIn b none (es ++ [e]) = madeIn b none es ++ if current es = some b then [e] else [] := by
  rw [madeIn_append, ← current, madeIn, madeIn, List.append_nil]

lemma filterMap_madeIn_concat {α : Type} (f : Edit → Option α) :
    (madeIn b none (es ++ [e])).filterMap f =
      (madeIn b none es).filterMap f ++ if current es = some b then (f e).toList else [] := by
  rw [madeIn_concat, List.filterMap_append]
  split_ifs
  · cases h : f e <;> simp [h]
  · rfl

lemma created_concat : created (es ++ [e]) = created es + [e].count createBlock := List.count_append

lemma created_le_length : created es ≤ es.length := List.count_le_length

lemma legal_concat : Legal args (es ++ [e]) ↔ Legal args es ∧ e.Allowed args es := by
  constructor
  · intro h
    constructor
    · intro i hi
      have he := h i (by rw [List.length_append]; omega)
      rwa [List.getElem_append_left hi, List.take_append_of_le_length (Nat.le_of_lt hi)] at he
    · have he := h es.length (by rw [List.length_append, List.length_singleton]; omega)
      rwa [List.getElem_concat_length rfl, List.take_left] at he
  · rintro ⟨hes, he⟩ i hi
    rw [List.length_append, List.length_singleton, Nat.lt_succ_iff_lt_or_eq] at hi
    obtain hi | rfl := hi
    · rw [List.getElem_append_left hi, List.take_append_of_le_length (Nat.le_of_lt hi)]
      exact hes i hi
    · rwa [List.getElem_concat_length rfl, List.take_left]

end Concat

section Legal

variable {args : UInt32} {es : List Edit} {e : Edit} {b : BlockId}

lemma not_appends (hs : e.statement? = none) (ht : e.terminator? = none) : ¬ e.Appends :=
  fun h => h.elim (absurd hs) (absurd ht)

lemma Appends.selected?_eq (happ : e.Appends) : e.selected? = none := by
  cases e with
  | switchTo b => exact absurd happ (not_appends rfl rfl)
  | _ => rfl

lemma Appends.count_eq_zero (happ : e.Appends) {x : Edit} (hx : ¬ x.Appends) : [e].count x = 0 := by
  rw [List.count_eq_zero, List.mem_singleton]
  rintro rfl
  exact hx happ

lemma Allowed.exists_open (he : e.Allowed args es) (happ : e.Appends) :
    ∃ b, current es = some b ∧ terminatorsOf b es = [] := by
  cases e <;> first | exact he | exact absurd happ (not_appends rfl rfl)

lemma Allowed.created_of_selected (he : e.Allowed args es) (hb : e.selected? = some b) :
    Key.toNat b < created es := by
  cases e with
  | switchTo c =>
    cases hb
    exact he
  | _ => cases hb

lemma Legal.created_of_current (h : Legal args es) (hb : current es = some b) : Key.toNat b < created es := by
  induction es using List.reverseRecOn with
  | nil => cases hb
  | append_singleton es e ih =>
    obtain ⟨hes, he⟩ := legal_concat.1 h
    rw [current_concat, Option.or_eq_some_iff] at hb
    have hlt : Key.toNat b < created es :=
      hb.elim he.created_of_selected fun ⟨_, hcurrent⟩ => ih hes hcurrent
    rw [created_concat]
    omega

lemma Legal.madeIn_eq_nil (h : Legal args es) (hb : created es ≤ Key.toNat b) : madeIn b none es = [] := by
  induction es using List.reverseRecOn with
  | nil => rfl
  | append_singleton es e ih =>
    obtain ⟨hes, -⟩ := legal_concat.1 h
    rw [created_concat] at hb
    have hcurrent : ¬ current es = some b := by
      intro hcurrent
      have hlt := hes.created_of_current hcurrent
      omega
    rw [madeIn_concat, if_neg hcurrent, List.append_nil]
    exact ih hes (by omega)

lemma Legal.length_terminatorsOf_le (h : Legal args es) (b : BlockId) : (terminatorsOf b es).length ≤ 1 := by
  induction es using List.reverseRecOn with
  | nil => exact Nat.zero_le 1
  | append_singleton es e ih =>
    obtain ⟨hes, he⟩ := legal_concat.1 h
    rw [terminatorsOf, filterMap_madeIn_concat, ← terminatorsOf]
    split_ifs with hcurrent
    · cases ht : e.terminator? with
      | none => simpa only [Option.toList_none, List.append_nil] using ih hes
      | some t =>
        obtain ⟨c, hc, hopen⟩ := he.exists_open (.inr (by rw [ht]; nofun))
        cases hc.symm.trans hcurrent
        rw [hopen]
        exact Nat.le_refl 1
    · simpa only [List.append_nil] using ih hes

end Legal

end Edit

/-- What was appended to a block. -/
def OpenBlock.ofEdits (b : BlockId) (es : List Edit) : OpenBlock :=
  ⟨(Edit.statementsOf b es).toArray, (Edit.terminatorsOf b es).head?⟩

namespace Draft

open Edit

/-- A draft holds what its edits declared, created and appended. -/
structure Records (args : UInt32) (es : List Edit) (d : Draft) : Prop where
  args_eq : d.args = args
  vars_eq : d.vars.toNat = es.count .declareVar
  temps_eq : d.temps.toNat = es.count .declareTemp
  current_eq : d.current = Edit.current es
  size_eq : d.blocks.size = created es
  blocks_eq : ∀ b : BlockId, Key.toNat b < created es → d.blocks[Key.toNat b]? = some (.ofEdits b es)

namespace Records

variable {args : UInt32} {es : List Edit} {e : Edit} {d d' : Draft} {b : BlockId}

lemma ofEdits_concat_of_not_appends (happ : ¬ e.Appends) : OpenBlock.ofEdits b (es ++ [e]) = .ofEdits b es := by
  have hs : e.statement? = none := Decidable.not_not.1 fun h => happ (.inl h)
  have ht : e.terminator? = none := Decidable.not_not.1 fun h => happ (.inr h)
  rw [OpenBlock.ofEdits, statementsOf, terminatorsOf, filterMap_madeIn_concat, filterMap_madeIn_concat, hs, ht,
    Option.toList_none, Option.toList_none, ite_self, ite_self, List.append_nil, List.append_nil]
  rfl

lemma ofEdits_concat_of_ne (hb : Edit.current es ≠ some b) : OpenBlock.ofEdits b (es ++ [e]) = .ofEdits b es := by
  rw [OpenBlock.ofEdits, statementsOf, terminatorsOf, madeIn_concat, if_neg hb, List.append_nil]
  rfl

lemma ofEdits_concat_of_eq (hb : Edit.current es = some b) :
    OpenBlock.ofEdits b (es ++ [e]) =
      ⟨(statementsOf b es ++ e.statement?.toList).toArray, (terminatorsOf b es ++ e.terminator?.toList).head?⟩ := by
  rw [OpenBlock.ofEdits, statementsOf, terminatorsOf, filterMap_madeIn_concat, filterMap_madeIn_concat, if_pos hb,
    if_pos hb]
  rfl

lemma start (args : UInt32) : (Draft.start args).Records args [] :=
  ⟨rfl, rfl, rfl, rfl, rfl, nofun⟩

lemma concat (h : d.Records args es) (hargs : d'.args = d.args)
    (hvars : d'.vars.toNat = d.vars.toNat + [e].count .declareVar)
    (htemps : d'.temps.toNat = d.temps.toNat + [e].count .declareTemp)
    (hcurrent : d'.current = e.selected?.or d.current)
    (hsize : d'.blocks.size = d.blocks.size + [e].count .createBlock)
    (hblocks : ∀ b : BlockId, Key.toNat b < d'.blocks.size →
      d'.blocks[Key.toNat b]? = some (.ofEdits b (es ++ [e]))) :
    d'.Records args (es ++ [e]) := by
  have hcreated : d'.blocks.size = created (es ++ [e]) := by rw [hsize, h.size_eq, created_concat]
  exact {
    args_eq := hargs.trans h.args_eq
    vars_eq := by rw [hvars, h.vars_eq, List.count_append]
    temps_eq := by rw [htemps, h.temps_eq, List.count_append]
    current_eq := by rw [hcurrent, h.current_eq, current_concat]
    size_eq := hcreated
    blocks_eq := hcreated ▸ hblocks }

lemma blocks_of_not_appends (h : d.Records args es) (happ : ¬ e.Appends) (hlt : Key.toNat b < d.blocks.size) :
    d.blocks[Key.toNat b]? = some (.ofEdits b (es ++ [e])) := by
  rw [ofEdits_concat_of_not_appends happ]
  exact h.blocks_eq b (h.size_eq ▸ hlt)

lemma modify (h : d.Records args es) (happ : e.Appends) (hb : Edit.current es = some b)
    {f : OpenBlock → OpenBlock} (hf : f (.ofEdits b es) = .ofEdits b (es ++ [e])) :
    { d with blocks := d.blocks.modify (Key.toNat b) f }.Records args (es ++ [e]) := by
  have hcount {x : Edit} (hs : x.statement? = none) (ht : x.terminator? = none) : [e].count x = 0 :=
    happ.count_eq_zero (not_appends hs ht)
  have hsize : (d.blocks.modify (Key.toNat b) f).size = d.blocks.size := Array.size_modify
  refine h.concat rfl (by rw [hcount rfl rfl]; rfl) (by rw [hcount rfl rfl]; rfl) (by rw [happ.selected?_eq]; rfl)
    (by rw [hcount rfl rfl]; exact hsize) fun c hc => ?_
  have hget : d.blocks[Key.toNat c]? = some (.ofEdits c es) := by
    refine h.blocks_eq c ?_
    rw [← h.size_eq, ← hsize]
    exact hc
  rw [Array.getElem?_modify, hget]
  by_cases hcb : c = b
  · cases hcb
    rw [if_pos rfl, Option.map_some, hf]
  · have hne : Edit.current es ≠ some c := fun hc => hcb (Option.some_inj.1 (hc.symm.trans hb))
    rw [if_neg fun heq => hcb (Key.toNat_injective heq.symm), ofEdits_concat_of_ne hne]

lemma currentBlock_eq (h : d.Records args es) (hlegal : Legal args es) (hb : Edit.current es = some b) :
    d.currentBlock = .ok (Key.toNat b, .ofEdits b es) := by
  have hget := h.blocks_eq b (hlegal.created_of_current hb)
  unfold currentBlock
  rw [h.current_eq, hb]
  simp only [hget]

section Step

variable (h : d.Records args es) (hlegal : Legal args es) (he : e.Allowed args es)

include h hlegal he

lemma append {s : Statement} (hs : e.statement? = some s) :
    ∃ d', d.append s = .ok d' ∧ d'.Records args (es ++ [e]) := by
  have happ : e.Appends := .inl (by rw [hs]; nofun)
  have ht : e.terminator? = none := by cases e <;> first | rfl | cases hs
  obtain ⟨b, hb, hopen⟩ := he.exists_open happ
  refine ⟨_, ?_, h.modify happ hb (f := fun k => { k with statements := k.statements.push s }) ?_⟩
  · unfold Draft.append
    rw [h.currentBlock_eq hlegal hb]
    simp only [bind, Except.bind, OpenBlock.ofEdits, hopen, List.head?_nil, Option.isSome_none, Bool.false_eq_true,
      if_false]
  · rw [ofEdits_concat_of_eq hb, hs, ht, Option.toList_none, Option.toList_some, List.append_nil]
    simp only [OpenBlock.ofEdits, List.push_toArray]

lemma terminate {t : Terminator} (ht : e.terminator? = some t) :
    ∃ d', d.terminate t = .ok d' ∧ d'.Records args (es ++ [e]) := by
  have happ : e.Appends := .inr (by rw [ht]; nofun)
  have hs : e.statement? = none := by cases e <;> first | rfl | cases ht
  obtain ⟨b, hb, hopen⟩ := he.exists_open happ
  refine ⟨_, ?_, h.modify happ hb (f := fun k => { k with terminator := some t }) ?_⟩
  · unfold Draft.terminate
    rw [h.currentBlock_eq hlegal hb]
    simp only [bind, Except.bind, OpenBlock.ofEdits, hopen, List.head?_nil, Option.isSome_none, Bool.false_eq_true,
      if_false]
  · rw [ofEdits_concat_of_eq hb, hs, ht, hopen, Option.toList_none, Option.toList_some, List.append_nil]
    rfl

/-- No edit that is allowed is refused, and each is recorded. -/
lemma edit (hlt : es.length + 1 < UInt32.size) : ∃ d', d.edit e = .ok d' ∧ d'.Records args (es ++ [e]) := by
  have hvars : d.vars.toNat ≤ es.length := h.vars_eq ▸ List.count_le_length
  have htemps : d.temps.toNat ≤ es.length := h.temps_eq ▸ List.count_le_length
  cases e with
  | assign | drop => exact h.append hlegal he rfl
  | ret | goto | branch | switch | call | diverge | panic => exact h.terminate hlegal he rfl
  | arg i =>
    have hok : d.arg i = .ok (.arg i) := if_pos (h.args_eq ▸ he)
    refine ⟨d, ?_, h.concat rfl rfl rfl rfl rfl fun b => h.blocks_of_not_appends (not_appends rfl rfl)⟩
    rw [Draft.edit, hok]
    rfl
  | declareVar =>
    have hone := toNat_add_one (Nat.lt_of_le_of_lt (Nat.add_le_add_right hvars 1) hlt)
    exact ⟨_, rfl, h.concat rfl hone rfl rfl rfl fun b => h.blocks_of_not_appends (not_appends rfl rfl)⟩
  | declareTemp =>
    have hone := toNat_add_one (Nat.lt_of_le_of_lt (Nat.add_le_add_right htemps 1) hlt)
    exact ⟨_, rfl, h.concat rfl rfl hone rfl rfl fun b => h.blocks_of_not_appends (not_appends rfl rfl)⟩
  | createBlock =>
    refine ⟨_, rfl, h.concat rfl rfl rfl rfl (Array.size_push _) fun b hb => ?_⟩
    have hpush : (d.blocks.push .empty)[Key.toNat b]? =
        if Key.toNat b = d.blocks.size then some .empty else d.blocks[Key.toNat b]? := Array.getElem?_push
    rw [Draft.createBlock, hpush]
    split_ifs with hlast
    · have hempty : madeIn b none es = [] := hlegal.madeIn_eq_nil (h.size_eq ▸ (Nat.le_of_eq hlast.symm))
      rw [ofEdits_concat_of_not_appends (not_appends rfl rfl), OpenBlock.ofEdits, statementsOf, terminatorsOf, hempty]
      rfl
    · have hlt : Key.toNat b < d.blocks.size := by
        rw [Draft.createBlock, Array.size_push] at hb
        omega
      exact h.blocks_of_not_appends (not_appends rfl rfl) hlt
  | switchTo b =>
    have hok : d.switchTo b = .ok { d with current := some b } := if_pos (h.size_eq ▸ he)
    exact ⟨_, hok, h.concat rfl rfl rfl rfl rfl fun b => h.blocks_of_not_appends (not_appends rfl rfl)⟩
  | isTerminated b =>
    refine ⟨d, ?_, h.concat rfl rfl rfl rfl rfl fun b => h.blocks_of_not_appends (not_appends rfl rfl)⟩
    rw [Draft.edit, isTerminated, h.blocks_eq b he]
    rfl

end Step

section Misuse

variable (h : d.Records args es) (hlegal : Legal args es)

include h hlegal

lemma exists_open {i : Nat} {block : OpenBlock} (hcurrent : d.currentBlock = .ok (i, block))
    (hopen : ¬ block.terminator.isSome) : ∃ b ∈ Edit.current es, terminatorsOf b es = [] := by
  cases hb : Edit.current es with
  | none =>
    rw [currentBlock, h.current_eq, hb] at hcurrent
    cases hcurrent
  | some b =>
    rw [h.currentBlock_eq hlegal hb] at hcurrent
    cases hcurrent
    rw [Option.not_isSome_iff_eq_none, OpenBlock.ofEdits, List.head?_eq_none_iff] at hopen
    exact ⟨b, rfl, hopen⟩

lemma exists_open_of_append {s : Statement} (hd : d.append s = .ok d') :
    ∃ b ∈ Edit.current es, terminatorsOf b es = [] := by
  obtain ⟨⟨i, block⟩, hcurrent, hd⟩ := exists_of_bind_eq_ok hd
  dsimp only at hd
  split_ifs at hd with hopen
  exact h.exists_open hlegal hcurrent hopen

lemma exists_open_of_terminate {t : Terminator} (hd : d.terminate t = .ok d') :
    ∃ b ∈ Edit.current es, terminatorsOf b es = [] := by
  obtain ⟨⟨i, block⟩, hcurrent, hd⟩ := exists_of_bind_eq_ok hd
  dsimp only at hd
  split_ifs at hd with hopen
  exact h.exists_open hlegal hcurrent hopen

lemma allowed_of_edit_eq_ok (hd : d.edit e = .ok d') : e.Allowed args es := by
  cases e with
  | declareVar | declareTemp | createBlock => trivial
  | assign | drop => exact h.exists_open_of_append hlegal hd
  | ret | goto | branch | switch | call | diverge | panic => exact h.exists_open_of_terminate hlegal hd
  | arg i =>
    by_contra hi
    have harg : d.arg i = .error .noArgument := if_neg (h.args_eq ▸ hi)
    rw [Draft.edit, harg] at hd
    cases hd
  | switchTo b =>
    by_contra hb
    have hswitch : d.switchTo b = .error .foreignBlock := if_neg (h.size_eq ▸ hb)
    cases hswitch.symm.trans hd
  | isTerminated b =>
    by_contra hb
    have hnone : d.blocks[Key.toNat b]? = none := Array.getElem?_eq_none (h.size_eq ▸ Nat.le_of_not_lt hb)
    rw [Draft.edit, isTerminated, hnone] at hd
    cases hd

end Misuse

end Records

/-- Edits that are legal are all carried out and recorded. -/
lemma exists_records {args : UInt32} {es : List Edit} (hlegal : Legal args es) (hlt : es.length < UInt32.size) :
    ∃ d, ofEdits args es = .ok d ∧ d.Records args es := by
  -- The last edit is allowed after all others, and finds the draft that records them.
  induction es using List.reverseRecOn with
  | nil => exact ⟨_, rfl, .start args⟩
  | append_singleton es e ih =>
    obtain ⟨hes, he⟩ := legal_concat.1 hlegal
    rw [List.length_append, List.length_singleton] at hlt
    obtain ⟨d, hd, hrecords⟩ := ih hes (by omega)
    obtain ⟨d', hd', hrecords'⟩ := hrecords.edit hes he hlt
    refine ⟨d', ?_, hrecords'⟩
    rw [ofEdits, List.foldlM_append, ← ofEdits, hd]
    simp only [bind, Except.bind, List.foldlM_cons, List.foldlM_nil, hd']
    rfl

/-- Edits are carried out if none of them is a misuse, and only then. -/
theorem ofEdits_eq_ok_iff {args : UInt32} {es : List Edit} (hlt : es.length < UInt32.size) :
    (∃ d, ofEdits args es = .ok d) ↔ Legal args es := by
  refine ⟨?_, fun hlegal => (exists_records hlegal hlt).imp fun _ h => h.1⟩
  rintro ⟨d, hd⟩
  induction es using List.reverseRecOn generalizing d with
  | nil => exact nofun
  | append_singleton es e ih =>
    rw [List.length_append, List.length_singleton] at hlt
    rw [ofEdits, List.foldlM_append] at hd
    obtain ⟨d₀, hd₀, hd⟩ := exists_of_bind_eq_ok hd
    obtain ⟨d₁, hd₁, -⟩ := exists_of_bind_eq_ok hd
    have hlegal := ih (by omega) d₀ hd₀
    obtain ⟨d₂, hd₂, hrecords⟩ := exists_records hlegal (by omega)
    cases hd₂.symm.trans hd₀
    exact legal_concat.2 ⟨hlegal, hrecords.allowed_of_edit_eq_ok hlegal hd₁⟩

lemma map_closed?_of_closeFrom {i : Nat} {l : List OpenBlock} {ks : List Block} (h : closeFrom i l = .ok ks) :
    l.map OpenBlock.closed? = ks.map some := by
  induction l generalizing i ks with
  | nil =>
    cases h
    rfl
  | cons o l ih =>
    unfold closeFrom at h
    split at h
    · cases h
    · next k hk =>
      split at h
      · cases h
      · next hrest =>
        cases h
        rw [List.map_cons, List.map_cons, hk, ih hrest]

lemma exists_of_closeFrom_eq_error {i j : Nat} {l : List OpenBlock} (h : closeFrom i l = .error j) :
    ∃ before o after, l = before ++ o :: after ∧ o.terminator = none ∧ (∀ k ∈ before, k.terminator ≠ none) ∧
      j = i + before.length := by
  induction l generalizing i with
  | nil => cases h
  | cons o l ih =>
    unfold closeFrom at h
    split at h
    · next ho =>
      cases h
      exact ⟨[], o, l, rfl, Option.map_eq_none_iff.1 ho, nofun, rfl⟩
    · next k hk =>
      split at h
      · next hrest =>
        cases h
        obtain ⟨before, o', after, rfl, hopen, hclosed, rfl⟩ := ih hrest
        have ho : o.terminator ≠ none := by
          intro ho
          rw [OpenBlock.closed?, ho] at hk
          cases hk
        exact ⟨o :: before, o', after, rfl, hopen, List.forall_mem_cons.2 ⟨ho, hclosed⟩, by
          rw [List.length_cons]; omega⟩
      · cases h

end Draft

/-- The body that edits describe. It has the blocks that were created, in order, and in each block what was appended
to it. -/
structure Body.IsDraftOf (args : UInt32) (es : List Edit) (body : Body) : Prop where
  args_eq : body.args = args
  vars_eq : body.vars.toNat = es.count .declareVar
  temps_eq : body.temps.toNat = es.count .declareTemp
  size_eq : body.blocks.size = Edit.created es
  blocks_eq : ∀ b : BlockId, Key.toNat b < Edit.created es →
    ∃ t, Edit.terminatorsOf b es = [t] ∧ body.blocks.get? b = some ⟨Edit.statementsOf b es, t⟩

namespace Draft.Records

open Edit

variable {args : UInt32} {es : List Edit} {d : Draft} (h : d.Records args es)

include h

lemma isDraftOf (hlegal : Legal args es) {body : Body} (hfinish : d.finish = .ok body) : body.IsDraftOf args es := by
  have hsize := size_finish hfinish
  unfold finish at hfinish
  split at hfinish
  · cases hfinish
  · next ks hks =>
    cases hfinish
    refine ⟨h.args_eq, h.vars_eq, h.temps_eq, hsize.trans h.size_eq, fun b hb => ?_⟩
    have hget : (d.blocks.toList.map OpenBlock.closed?)[Key.toNat b]? = some (OpenBlock.ofEdits b es).closed? := by
      rw [List.getElem?_map, Array.getElem?_toList, h.blocks_eq b hb, Option.map_some]
    rw [map_closed?_of_closeFrom hks, List.getElem?_map, Option.map_eq_some_iff] at hget
    obtain ⟨k, hk, hclosed⟩ := hget
    obtain ⟨t, ht, rfl⟩ := Option.map_eq_some_iff.1 hclosed.symm
    obtain ⟨ts, hts⟩ := List.head?_eq_some_iff.1 ht
    have hlength := hlegal.length_terminatorsOf_le b
    rw [hts, List.length_cons] at hlength
    have hnil : ts = [] := List.eq_nil_of_length_eq_zero (by omega)
    cases hnil
    refine ⟨t, hts, ?_⟩
    rw [Arena.get?_eq_getElem?_toList]
    exact hk

lemma of_finish_eq_error (hlt : es.length < UInt32.size) {b : BlockId} (hfinish : d.finish = .error b) :
    Key.toNat b < created es ∧ terminatorsOf b es = [] ∧
      ∀ c : BlockId, Key.toNat c < Key.toNat b → terminatorsOf c es ≠ [] := by
  unfold finish at hfinish
  split at hfinish
  · next j hj =>
    cases hfinish
    obtain ⟨before, o, after, hblocks, hopen, hclosed, rfl⟩ := exists_of_closeFrom_eq_error hj
    have hlast : before.length < created es := by
      rw [← h.size_eq, ← Array.length_toList, hblocks, List.length_append, List.length_cons]
      omega
    have hcreated : created es ≤ es.length := created_le_length
    have hindex : Key.toNat (Key.ofNat (0 + before.length) : BlockId) = before.length := by
      rw [Key.toNat_ofNat (by omega), Nat.zero_add]
    have hget {c : BlockId} (hc : Key.toNat c < created es) :
        (before ++ o :: after)[Key.toNat c]? = some (.ofEdits c es) := by
      rw [← hblocks, Array.getElem?_toList]
      exact h.blocks_eq c hc
    rw [hindex]
    refine ⟨hlast, ?_, fun c hc hnone => ?_⟩
    · have hgiven := hget (hindex.symm ▸ hlast)
      rw [hindex, List.getElem?_append_right (Nat.le_refl _), Nat.sub_self] at hgiven
      cases hgiven
      exact List.head?_eq_none_iff.1 hopen
    · have hgiven := hget (Nat.lt_trans hc hlast)
      rw [List.getElem?_append_left hc] at hgiven
      exact hclosed _ (List.mem_of_getElem? hgiven) (List.head?_eq_none_iff.2 hnone)
  · cases hfinish

end Draft.Records

lemma Module.functions_define {m : Module} {f : FuncId} {function : Function} (hf : m.get? f = some function)
    (body : Body) :
    (m.define f body).functions.toList = m.functions.toList.set (Key.toNat f) { function with body } := by
  have hget : m.functions.toList[Key.toNat f]? = some function := by
    rw [← Arena.get?_eq_getElem?_toList]
    exact hf
  calc (m.define f body).functions.toList
    _ = m.functions.toList.modify (Key.toNat f) ({ · with body }) := Array.toList_modify
    _ = m.functions.toList.set (Key.toNat f) { function with body } := by
      rw [List.modify_eq_set_getElem?, hget]
      rfl

/-- Drafting gives a function the whole body that the edits describe, or nothing. The body is refused for the first
block that was left without a terminator, and then the module stays as it was. -/
theorem drafting_all_or_nothing {m : Module} {f : FuncId} {function : Function} {args : UInt32} {es : List Edit}
    (hf : m.get? f = some function) (hlt : es.length < UInt32.size) (hlegal : Edit.Legal args es) :
    ∃ d, Draft.ofEdits args es = .ok d ∧
      ((∃ g, (m.install f d).1 = .ok g) ↔
        ∀ b : BlockId, Key.toNat b < Edit.created es → Edit.terminatorsOf b es ≠ []) ∧
      (∀ g m', m.install f d = (.ok g, m') → g = f ∧ ∃ body : Body, body.IsDraftOf args es ∧
        m'.name = m.name ∧ m'.names = m.names ∧
        m'.functions.toList = m.functions.toList.set (Key.toNat f) { function with body }) ∧
      ∀ b m', m.install f d = (.error b, m') → m' = m ∧
        Key.toNat b < Edit.created es ∧ Edit.terminatorsOf b es = [] ∧
        ∀ c : BlockId, Key.toNat c < Key.toNat b → Edit.terminatorsOf c es ≠ [] := by
  obtain ⟨d, hd, hrecords⟩ := Draft.exists_records hlegal hlt
  refine ⟨d, hd, ?_⟩
  cases hfinish : d.finish with
  | ok body =>
    have hinstall : m.install f d = (.ok f, m.define f body) := by rw [Module.install, hfinish]
    have hdraft := hrecords.isDraftOf hlegal hfinish
    rw [hinstall]
    refine ⟨iff_of_true ⟨f, rfl⟩ fun b hb => ?_, fun g m' heq => ?_, nofun⟩
    · obtain ⟨t, ht, -⟩ := hdraft.blocks_eq b hb
      rw [ht]
      nofun
    · cases heq
      exact ⟨rfl, body, hdraft, rfl, rfl, Module.functions_define hf body⟩
  | error b =>
    have hinstall : m.install f d = (.error b, m) := by rw [Module.install, hfinish]
    obtain ⟨hb, hopen, hfirst⟩ := hrecords.of_finish_eq_error hlt hfinish
    rw [hinstall]
    refine ⟨iff_of_false nofun fun hall => hall b hb hopen, nofun, fun c m' heq => ?_⟩
    cases heq
    exact ⟨rfl, hb, hopen, hfirst⟩

/-- Edits that fill three blocks in turns. -/
def Edit.interleaved : List Edit :=
  [createBlock, createBlock, createBlock, switchTo ⟨1⟩, declareVar, assign (.var 0) (.use (.int 1)) ⟨2, 3⟩,
    switchTo ⟨0⟩, arg 0, switch (.arg 0) [(.int 0, ⟨1⟩)] (some ⟨2⟩) ⟨1, 3⟩,
    switchTo ⟨1⟩, isTerminated ⟨0⟩, drop .free (.var 0) ⟨3, 3⟩, goto ⟨2⟩ ⟨4, 3⟩,
    switchTo ⟨2⟩, ret ⟨5, 3⟩]

theorem Edit.interleaved_drafted :
    Edit.interleaved.length < UInt32.size ∧ Edit.Legal 1 interleaved ∧
      ∃ d m' body, Draft.ofEdits 1 interleaved = .ok d ∧
        ((Module.empty "m").declare "f" []).install ⟨0⟩ d = (.ok ⟨0⟩, m') ∧
        body.IsDraftOf 1 interleaved ∧ m'.functions.toList = [⟨"f", [], body⟩] := by
  have hlt : Edit.interleaved.length < UInt32.size := by decide
  have hlegal : Edit.Legal 1 interleaved := by decide +kernel
  have hclosed : ∀ i < 3, terminatorsOf (Key.ofNat i) interleaved ≠ [] := by decide +kernel
  obtain ⟨d, hd, hiff, hok, -⟩ :=
    drafting_all_or_nothing (m := (Module.empty "m").declare "f" []) (f := ⟨0⟩) rfl hlt hlegal
  obtain ⟨g, hg⟩ := hiff.2 fun b hb => Key.ofNat_toNat b ▸ hclosed (Key.toNat b) hb
  obtain ⟨rfl, body, hbody, -, -, hfunctions⟩ := hok g _ (Prod.ext hg rfl)
  exact ⟨hlt, hlegal, d, _, body, hd, Prod.ext hg rfl, hbody, hfunctions⟩

end BlockIR
