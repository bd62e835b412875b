import BlockIR.Proofs.RoundTrip.Printing

/-!
# Positions do not matter

Code apart from its positions. Tokens that agree with the leaves of a derivation are the leaves of one that
differs from it in positions only, and such derivations are valid alike and denote the same code.
-/

namespace BlockIR

section Unplaced

def Statement.unplaced (s : Statement) : Statement := ⟨s.action, .none⟩

def Terminator.unplaced (t : Terminator) : Terminator := ⟨t.transfer, .none⟩

def Block.unplaced (b : Block) : Block := ⟨b.statements.map Statement.unplaced, b.terminator.unplaced⟩

def Body.unplaced (b : Body) : Body := { b with blocks := .ofList (b.blocks.toList.map Block.unplaced) }

/-- The function without the positions of its code. -/
def Function.unplaced (f : Function) : Function := { f with body := f.body.unplaced }

end Unplaced

namespace Tree

def Statement.unplaced (s : Statement) : Statement := ⟨s.action, .none⟩

def Terminator.unplaced (t : Terminator) : Terminator := ⟨t.transfer, .none⟩

def Block.unplaced (b : Block) : Block :=
  ⟨b.label, b.statements.map Statement.unplaced, b.terminator.unplaced⟩

def Function.unplaced (f : Function) : Function :=
  { f with
    blocks := f.blocks.map Block.unplaced
    blocks_ne_nil := fun h => f.blocks_ne_nil (List.map_eq_nil_iff.1 h) }

def unplaced (t : Tree) : Tree := t.map Function.unplaced

section Meaning

variable {s : Scope}

lemma Block.valid_unplaced (b : Block) : b.unplaced.Valid s ↔ b.Valid s := by
  refine and_congr_left' ?_
  constructor
  · intro h t ht
    exact h t.unplaced (List.mem_map_of_mem ht)
  · intro h t' ht'
    obtain ⟨t, ht, rfl⟩ := List.mem_map.1 ht'
    exact h t ht

lemma Block.denote_unplaced (b : Block) : b.unplaced.denote s = (b.denote s).unplaced := by
  have hstatements : (b.statements.map Statement.unplaced).map (·.denote s) =
      (b.statements.map (·.denote s)).map BlockIR.Statement.unplaced := by
    rw [List.map_map, List.map_map]
    rfl
  exact congrArg (BlockIR.Block.mk · (b.terminator.denote s).unplaced) hstatements

lemma Function.labels_unplaced (f : Function) : f.unplaced.labels = f.labels := by
  rw [labels, unplaced, List.map_map]
  rfl

lemma Function.valid_unplaced (names : List String) (f : Function) :
    f.unplaced.Valid names ↔ f.Valid names := by
  have hblocks : (∀ b ∈ f.unplaced.blocks, b.Valid ⟨names, f.unplaced.labels⟩) ↔
      ∀ b ∈ f.blocks, b.Valid ⟨names, f.labels⟩ := by
    rw [labels_unplaced]
    constructor
    · intro h b hb
      exact b.valid_unplaced.1 (h b.unplaced (List.mem_map_of_mem hb))
    · intro h b' hb'
      obtain ⟨b, hb, rfl⟩ := List.mem_map.1 hb'
      exact b.valid_unplaced.2 (h b hb)
  have hlabels := f.labels_unplaced
  constructor
  · rintro ⟨hattrs, hparams, hvars, htemps, hnodup, hvalid⟩
    exact ⟨hattrs, hparams, hvars, htemps, hlabels ▸ hnodup, hblocks.1 hvalid⟩
  · rintro ⟨hattrs, hparams, hvars, htemps, hnodup, hvalid⟩
    exact ⟨hattrs, hparams, hvars, htemps, hlabels ▸ hnodup, hblocks.2 hvalid⟩

lemma Function.denote_unplaced (names : List String) (f : Function) :
    f.unplaced.denote names = (f.denote names).unplaced := by
  have hblocks : (f.blocks.map Block.unplaced).map (·.denote ⟨names, f.unplaced.labels⟩) =
      (f.blocks.map (·.denote ⟨names, f.labels⟩)).map BlockIR.Block.unplaced := by
    rw [labels_unplaced, List.map_map, List.map_map]
    exact List.map_congr_left fun b _ => b.denote_unplaced
  have hbody : f.unplaced.body names = (f.body names).unplaced :=
    congrArg (fun bs => Body.mk (.ofNat f.params.length) (.ofNat f.vars.length) (.ofNat f.temps.length) (.ofList bs))
      hblocks
  exact congrArg (BlockIR.Function.mk f.name (f.attrs.map (·.denote))) hbody

lemma names_unplaced (t : Tree) : t.unplaced.names = t.names := by
  rw [names, unplaced, List.map_map]
  rfl

lemma valid_unplaced (t : Tree) : t.unplaced.Valid ↔ t.Valid := by
  have hnames := t.names_unplaced
  constructor
  · rintro ⟨hnodup, hvalid⟩
    refine ⟨hnames ▸ hnodup, fun f hf => ?_⟩
    have hf' := hvalid f.unplaced (List.mem_map_of_mem hf)
    rw [hnames] at hf'
    exact (f.valid_unplaced _).1 hf'
  · rintro ⟨hnodup, hvalid⟩
    refine ⟨hnames ▸ hnodup, fun f' hf' => ?_⟩
    obtain ⟨f, hf, rfl⟩ := List.mem_map.1 hf'
    rw [hnames]
    exact (f.valid_unplaced _).2 (hvalid f hf)

lemma fits_unplaced (t : Tree) : t.unplaced.Fits ↔ t.Fits := by
  have hfits : ∀ f : Function, f.unplaced.Fits ↔ f.Fits := by
    intro f
    have hlength : f.unplaced.blocks.length = f.blocks.length := List.length_map _
    constructor
    · rintro ⟨hvars, htemps, hblocks⟩
      exact ⟨hvars, htemps, hlength ▸ hblocks⟩
    · rintro ⟨hvars, htemps, hblocks⟩
      exact ⟨hvars, htemps, hlength ▸ hblocks⟩
  have hlength : t.unplaced.length = t.length := List.length_map _
  constructor
  · rintro ⟨hsize, hall⟩
    exact ⟨hlength ▸ hsize, fun f hf => (hfits f).1 (hall f.unplaced (List.mem_map_of_mem hf))⟩
  · rintro ⟨hsize, hall⟩
    refine ⟨hlength ▸ hsize, fun f' hf' => ?_⟩
    obtain ⟨f, hf, rfl⟩ := List.mem_map.1 hf'
    exact (hfits f).2 (hall f hf)

lemma functions_denote_unplaced (t : Tree) (name : String) :
    (t.unplaced.denote name).functions.toList =
      (t.denote name).functions.toList.map BlockIR.Function.unplaced := by
  rw [denote, denote, Arena.toList_ofList, Arena.toList_ofList, names_unplaced, unplaced, List.map_map,
    List.map_map]
  exact List.map_congr_left fun f _ => f.denote_unplaced _

end Meaning

end Tree

section Respelling

open Leaf (tokens)

variable {ls : List Leaf} {ts : List Lexeme} {ks : List Token}

lemma exists_spells (hls : ∀ l ∈ ls, l.pos = none) (hts : ts.map (·.token) = tokens ls ++ ks) :
    ∃ rest, Spells ls ts rest ∧ rest.map (·.token) = ks := by
  induction ls generalizing ts with
  | nil => exact ⟨ts, rfl, hts⟩
  | cons l ls ih =>
    obtain ⟨hl, hls⟩ := List.forall_mem_cons.1 hls
    obtain ⟨lx, ts', rfl, htoken, hts'⟩ := List.map_eq_cons_iff.1 hts
    obtain ⟨rest, hspells, hrest⟩ := ih hls hts'
    refine ⟨rest, ⟨lx, ts', rfl, ⟨htoken, fun p hp => ?_⟩, hspells⟩, hrest⟩
    rw [hl] at hp
    cases hp

lemma pos_eq_none_of_isFree (h : ls.all Leaf.isFree) : ∀ l ∈ ls, l.pos = none := by
  intro l hl
  have hfree := List.all_eq_true.1 h l hl
  exact Option.isNone_iff_eq_none.1 (Bool.and_eq_true_iff.1 hfree).2

lemma pos_eq_none_of_isOuter (h : ls.all Leaf.isOuter) : ∀ l ∈ ls, l.pos = none := by
  intro l hl
  have houter := List.all_eq_true.1 h l hl
  exact Option.isNone_iff_eq_none.1 (Bool.and_eq_true_iff.1 houter).2

lemma exists_spells_placed {p : Pos} (hls : ls.all Leaf.isFree) (hne : ∃ t ls', ls = .of t :: ls')
    (hts : ts.map (·.token) = tokens (Leaf.placed p ls) ++ ks) :
    ∃ q rest, Spells (Leaf.placed q ls) ts rest ∧ rest.map (·.token) = ks := by
  rw [Leaf.tokens_placed] at hts
  obtain ⟨rest, hspells, hrest⟩ := exists_spells (pos_eq_none_of_isFree hls) hts
  obtain ⟨t, ls', hcons⟩ := hne
  rw [hcons] at hts
  obtain ⟨lx, ts', rfl, -, -⟩ := List.map_eq_cons_iff.1 hts
  exact ⟨lx.pos, rest, (Spells.placed_iff ⟨t, ls', hcons⟩).2 ⟨hspells, lx, ts', rfl, rfl⟩, hrest⟩

/-- Tokens that agree with the leaves of a part are the leaves of one that differs in positions only. -/
def Respells {τ : Type} (leaves : τ → List Leaf) (unplaced : τ → τ) (x : τ) : Prop :=
  ∀ ts ks, ts.map (·.token) = tokens (leaves x) ++ ks →
    ∃ x' rest, unplaced x' = unplaced x ∧ Spells (leaves x') ts rest ∧ rest.map (·.token) = ks

lemma respells_list {τ : Type} {leaves : τ → List Leaf} {unplaced : τ → τ} {xs : List τ}
    (h : ∀ x ∈ xs, Respells leaves unplaced x) :
    Respells (List.flatMap leaves) (List.map unplaced) xs := by
  intro ts ks hts
  induction xs generalizing ts with
  | nil => exact ⟨[], ts, rfl, rfl, hts⟩
  | cons x xs ih =>
    obtain ⟨hx, hxs⟩ := List.forall_mem_cons.1 h
    rw [List.flatMap_cons, Leaf.tokens_append, List.append_assoc] at hts
    obtain ⟨x', mid, hx', hspells, hmid⟩ := hx ts _ hts
    obtain ⟨xs', rest, hxs', hspells', hrest⟩ := ih hxs mid hmid
    refine ⟨x' :: xs', rest, ?_, hspells.append hspells', hrest⟩
    rw [List.map_cons, List.map_cons, hx', hxs']

lemma respells_statement (s : Tree.Statement) : Respells Tree.Statement.leaves Tree.Statement.unplaced s := by
  intro ts ks hts
  obtain ⟨q, rest, hspells, hrest⟩ := exists_spells_placed s.action.all_leaves s.action.exists_leaves_eq hts
  exact ⟨⟨s.action, q⟩, rest, rfl, hspells, hrest⟩

lemma respells_terminator (t : Tree.Terminator) :
    Respells Tree.Terminator.leaves Tree.Terminator.unplaced t := by
  intro ts ks hts
  obtain ⟨q, rest, hspells, hrest⟩ := exists_spells_placed t.transfer.all_leaves t.transfer.exists_leaves_eq hts
  exact ⟨⟨t.transfer, q⟩, rest, rfl, hspells, hrest⟩

lemma respells_block (b : Tree.Block) : Respells Tree.Block.leaves Tree.Block.unplaced b := by
  intro ts ks hts
  simp only [Tree.Block.leaves, Leaf.tokens_append, List.append_assoc] at hts
  obtain ⟨m₁, hhead, h₁⟩ := exists_spells (by simp [Leaf.ident, Leaf.mark, Leaf.of]) hts
  obtain ⟨statements, m₂, hstatements, hspells, h₂⟩ := respells_list (fun s _ => respells_statement s) _ _ h₁
  obtain ⟨terminator, m₃, hterminator, hspells', h₃⟩ := respells_terminator b.terminator _ _ h₂
  obtain ⟨rest, hclose, hrest⟩ := exists_spells (by simp [Leaf.mark, Leaf.of]) h₃
  refine ⟨⟨b.label, statements, terminator⟩, rest, ?_, ((hhead.append hspells).append hspells').append hclose, hrest⟩
  rw [Tree.Block.unplaced, Tree.Block.unplaced, hstatements, hterminator]

lemma respells_function (f : Tree.Function) : Respells Tree.Function.leaves Tree.Function.unplaced f := by
  intro ts ks hts
  rw [f.leaves_eq] at hts
  have hattrs : ∀ l ∈ f.attrs.flatMap Tree.Attr.leaves, l.pos = none := by
    intro l hl
    obtain ⟨a, -, hla⟩ := List.mem_flatMap.1 hl
    exact pos_eq_none_of_isOuter a.all_leaves l hla
  have hdecls : ∀ l ∈ f.decls.flatMap Tree.Decl.leaves, l.pos = none := by
    intro l hl
    obtain ⟨d, -, hld⟩ := List.mem_flatMap.1 hl
    exact pos_eq_none_of_isFree d.all_leaves l hld
  simp only [Leaf.tokens_append, List.append_assoc] at hts
  obtain ⟨m₁, h₁, hts⟩ := exists_spells hattrs hts
  obtain ⟨m₂, h₂, hts⟩ := exists_spells (by simp [Leaf.word, Leaf.of]) hts
  obtain ⟨m₃, h₃, hts⟩ := exists_spells (pos_eq_none_of_isOuter f.all_header) hts
  obtain ⟨m₄, h₄, hts⟩ := exists_spells (by simp [Leaf.mark, Leaf.of]) hts
  obtain ⟨m₅, h₅, hts⟩ := exists_spells hdecls hts
  obtain ⟨blocks, m₆, hblocks, h₆, hts⟩ := respells_list (fun b _ => respells_block b) _ _ hts
  obtain ⟨rest, h₇, hrest⟩ := exists_spells (by simp [Leaf.mark, Leaf.of]) hts
  have hne : blocks ≠ [] := by
    rintro rfl
    exact f.blocks_ne_nil (List.map_eq_nil_iff.1 hblocks.symm)
  refine ⟨{ f with blocks := blocks, blocks_ne_nil := hne }, rest, ?_, ?_, hrest⟩
  · simp only [Tree.Function.unplaced, hblocks]
  · rw [Tree.Function.leaves_eq]
    exact h₁.append (h₂.append (h₃.append (h₄.append (h₅.append (h₆.append h₇)))))

lemma respells_tree (t : Tree) : Respells Tree.leaves Tree.unplaced t :=
  respells_list fun f _ => respells_function f

end Respelling

end BlockIR
