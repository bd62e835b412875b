import BlockIR.Proofs.Grammar.Passes
import BlockIR.Proofs.Lexemes
import BlockIR.Proofs.Resolved
import Mathlib.Data.List.Forall2
import Mathlib.Data.List.Induction

/-!
# Parsed modules are resolved

Where a text is parsed, each name has found what it names: a function, or a block of the same function, that
may come later in the text. This needs no check of the module that is parsed.
-/

namespace BlockIR

namespace Draft

variable {d d' : Draft}

lemma blocks_of_follows {l : List Tree.Decl} (h : Parser.Follows Declares d l d') : d'.blocks = d.blocks := by
  induction l generalizing d with
  | nil =>
    cases h
    rfl
  | cons t l ih =>
    obtain ⟨d₁, hd₁, h⟩ := h
    rw [ih h]
    cases t with
    | var i =>
      obtain ⟨-, rfl⟩ := hd₁
      rfl
    | temp i =>
      obtain ⟨-, rfl⟩ := hd₁
      rfl

end Draft

section Bodies

variable {functions : List String} {args : Nat} {decls : List Tree.Decl} {bs : List Tree.Block} {b : Body}

lemma blocks_createBlocks {d : Draft} (h : Parser.Follows Draft.Declares (.start (.ofNat args)) decls d)
    (n : Nat) : (d.createBlocks n).blocks = (List.replicate n OpenBlock.empty).toArray := by
  rw [Draft.createBlocks_eq, Draft.blocks_of_follows h]
  exact Array.toList_inj.1 (by simp [Draft.start])

lemma Drafts.size (h : Drafts functions args decls bs b) : b.blocks.size = bs.length := by
  obtain ⟨-, -, d, d', hdecls, hfold, hfinish⟩ := h
  have hsize : d'.blocks.size = (d.createBlocks bs.length).blocks.size :=
    eq_of_foldlM_eq_ok (f := (·.blocks.size)) Draft.size_fill hfold
  rw [Draft.size_finish hfinish, hsize, blocks_createBlocks hdecls, List.size_toArray, List.length_replicate]

lemma Drafts.blocks_eq (h : Drafts functions args decls bs b) (hsize : b.blocks.size ≤ UInt32.size) :
    b.blocks = .ofList (bs.map (·.denote ⟨functions, bs.map (·.label)⟩)) := by
  rw [h.size] at hsize
  obtain ⟨hnodup, -, d, d', hdecls, hfold, hfinish⟩ := h
  have hd := blocks_createBlocks hdecls bs.length
  obtain ⟨d₁, hfold₁, hblocks, -⟩ := Parser.foldlM_fill_eq (s := ⟨functions, bs.map (·.label)⟩) bs []
    (d := d.createBlocks bs.length) rfl hnodup (by rw [List.length_map]; exact hsize) hd
  cases hfold.symm.trans hfold₁
  rw [Draft.finish_eq hblocks] at hfinish
  cases hfinish
  rfl

end Bodies

namespace NameTable

variable {name : String} {f : FuncId}

lemma lookup_insertEntry (n : String) (es : List (String × FuncId)) :
    (insertEntry name f es).lookup n = if n = name then some f else es.lookup n := by
  have hhead : ∀ (v : FuncId) (es : List (String × FuncId)) (k : String),
      List.lookup n ((k, v) :: es) = if n = k then some v else es.lookup n := by
    intro v es k
    rw [List.lookup_cons]
    by_cases hn : n = k
    · rw [if_pos hn, beq_iff_eq.2 hn]
    · rw [if_neg hn, beq_eq_false_iff_ne.2 hn]
  induction es with
  | nil => exact hhead f [] name
  | cons e es ih =>
    obtain ⟨k, v⟩ := e
    unfold insertEntry
    dsimp only
    split
    · exact hhead f _ name
    · split
      · next hlt =>
        rw [hhead, ih, hhead]
        by_cases hn : n = k
        · rw [if_pos hn, if_pos hn, if_neg (by rintro rfl; exact absurd (hn ▸ hlt) (String.lt_irrefl _))]
        · rw [if_neg hn, if_neg hn]
      · next hle hge =>
        have heq : name = k := String.le_antisymm (String.not_lt.1 hge) (String.not_lt.1 hle)
        rw [hhead, hhead, ← heq]
        by_cases hn : n = name
        · rw [if_pos hn, if_pos hn]
        · rw [if_neg hn, if_neg hn, if_neg hn]

lemma find?_ofList_iff {es : List (String × FuncId)} (hnodup : (es.map (·.1)).Nodup) :
    (ofList es).find? name = some f ↔ (name, f) ∈ es := by
  induction es using List.reverseRecOn with
  | nil => simp [ofList, find?, empty]
  | append_singleton es e ih =>
    rw [List.map_append, List.nodup_append] at hnodup
    obtain ⟨hes, -, hdisjoint⟩ := hnodup
    have hnew : ∀ f, (e.1, f) ∉ es := fun f hmem =>
      hdisjoint e.1 (List.mem_map.2 ⟨_, hmem, rfl⟩) e.1 (List.mem_singleton_self _) rfl
    have hfind : (ofList (es ++ [e])).find? name = if name = e.1 then some e.2 else (ofList es).find? name := by
      rw [ofList, List.foldl_append]
      exact lookup_insertEntry name _
    rw [hfind, List.mem_append, List.mem_singleton]
    by_cases hn : name = e.1
    · subst hn
      rw [if_pos rfl, Option.some.injEq]
      constructor
      · rintro rfl
        exact .inr rfl
      · rintro (hmem | heq)
        · exact absurd hmem (hnew f)
        · rw [← heq]
    · rw [if_neg hn, ih hes]
      constructor
      · exact .inl
      · rintro (hmem | heq)
        · exact hmem
        · exact absurd (congrArg Prod.fst heq) hn

end NameTable

namespace Module

/-- All functions have keys, and all blocks have. Keys have 32 bits: where they run out, functions and blocks
cannot be numbered, and there is no module. -/
structure Keyed (m : Module) : Prop where
  functions : m.functions.size ≤ UInt32.size
  blocks : ∀ f ∈ m.functions.toList, f.body.blocks.size ≤ UInt32.size

variable {name : String} {names : List String} {t : Tree} {m m' : Module}

lemma size_of_follows (h : Parser.Follows (fun m f m' => f.Adds names m m') m t m') :
    m'.functions.size = m.functions.size + t.length := by
  induction t generalizing m with
  | nil =>
    cases h
    rfl
  | cons f t ih =>
    obtain ⟨m₁, ⟨-, -, -, b, -, rfl⟩, h⟩ := h
    rw [ih h, Parser.size_define_declare, List.length_cons, Nat.add_right_comm, Nat.add_assoc]

/-- A function that was read, by its name and its body. -/
structure ReadAs (names : List String) (f : Tree.Function) (function : Function) : Prop where
  name : function.name = f.name
  body : Drafts names f.params.length f.decls f.blocks function.body

lemma exists_functions (fs : List Function) (hsize : fs.length + t.length ≤ UInt32.size)
    (h : Parser.Follows (fun m f m' => f.Adds names m m') (ofFunctions name fs) t m) :
    ∃ gs, List.Forall₂ (ReadAs names) t gs ∧ m = ofFunctions name (fs ++ gs) := by
  induction t generalizing fs with
  | nil =>
    cases h
    exact ⟨[], .nil, by rw [List.append_nil]⟩
  | cons f t ih =>
    obtain ⟨m₁, ⟨-, -, -, b, hdrafts, rfl⟩, h⟩ := h
    rw [List.length_cons] at hsize
    have hlt : fs.length < UInt32.size := by omega
    have hdefine := define_declare_ofFunctions name hlt ⟨f.name, f.attrs.map (·.denote), b⟩
    rw [hdefine] at h
    obtain ⟨gs, hgs, rfl⟩ := ih _ (by rw [List.length_append, List.length_singleton]; omega) h
    refine ⟨⟨f.name, f.attrs.map (·.denote), b⟩ :: gs, .cons ⟨rfl, hdrafts⟩ hgs, ?_⟩
    rw [List.append_assoc]
    rfl

lemma find?_ofFunctions_iff {fs : List Function} (hnodup : (fs.map (·.name)).Nodup)
    (hsize : fs.length ≤ UInt32.size) {n : String} {f : FuncId} :
    (ofFunctions name fs).find? n = some f ↔
      ∃ function, (ofFunctions name fs).get? f = some function ∧ function.name = n := by
  have hkeys : ((fs.map (·.name)).zipIdx.map (·.1)).Nodup := by
    rw [List.zipIdx_map_fst]
    exact hnodup
  rw [find?, ofFunctions, NameTable.find?_ofList_iff (by rw [List.map_map]; exact hkeys), List.mem_map]
  have hget : (ofFunctions name fs).get? f = fs[Key.toNat f]? := Arena.get?_eq_getElem?_toList _ f
  rw [← ofFunctions, hget]
  constructor
  · rintro ⟨⟨n', i⟩, hi, heq⟩
    cases heq
    rw [List.mem_zipIdx_iff_getElem?, List.getElem?_map, Option.map_eq_some_iff] at hi
    obtain ⟨function, hfunction, hname⟩ := hi
    have hlt := (List.getElem?_eq_some_iff.1 hfunction).1
    exact ⟨function, by rw [Key.toNat_ofNat (by omega)]; exact hfunction, hname⟩
  · rintro ⟨function, hfunction, rfl⟩
    refine ⟨(function.name, Key.toNat f), ?_, congrArg (Prod.mk function.name) (Key.ofNat_toNat f)⟩
    rw [List.mem_zipIdx_iff_getElem?, List.getElem?_map, hfunction, Option.map_some]

end Module

namespace Scope

variable {s : Scope}

lemma toNat_function {name : String} (h : name ∈ s.functions) (hsize : s.functions.length ≤ UInt32.size) :
    Key.toNat (s.function name) < s.functions.length := by
  have hlt := List.idxOf_lt_length_of_mem h
  rw [function, Key.toNat_ofNat (by omega)]
  exact hlt

lemma toNat_block {label : String} (h : label ∈ s.labels) (hsize : s.labels.length ≤ UInt32.size) :
    Key.toNat (s.block label) < s.labels.length := by
  have hlt := List.idxOf_lt_length_of_mem h
  rw [block, Key.toNat_ofNat (by omega)]
  exact hlt

end Scope

namespace Tree

variable {s : Scope}

section Items

variable (hsize : s.functions.length ≤ UInt32.size)
include hsize

lemma Operand.items_denote {x : Operand} (hx : x.Valid s) :
    ∀ g ∈ (x.denote s).items, Key.toNat g < s.functions.length := by
  intro g hg
  cases x with
  | read p => cases hg
  | const c => cases hg
  | item name =>
    obtain rfl := List.mem_singleton.1 hg
    exact Scope.toNat_function hx hsize

lemma Callee.items_denote {f : Callee} (hf : f.Valid s) :
    ∀ g ∈ (f.denote s).items, Key.toNat g < s.functions.length := by
  cases f with
  | bare name => exact Operand.items_denote hsize (x := .item name) hf
  | operand x => exact Operand.items_denote hsize hf

lemma Action.items_denote {a : Action} (ha : a.Valid s) :
    ∀ g ∈ (a.denote s).items, Key.toNat g < s.functions.length := by
  intro g hg
  obtain ⟨y, hy, hg⟩ := List.mem_flatMap.1 hg
  cases a with
  | drop kind p => cases hy
  | assign p r =>
    cases r with
    | use x =>
      obtain rfl := List.mem_singleton.1 hy
      exact Operand.items_denote hsize ha g hg
    | unary op x =>
      obtain rfl := List.mem_singleton.1 hy
      exact Operand.items_denote hsize ha g hg
    | binary op x x' =>
      rcases List.mem_cons.1 hy with rfl | hy
      · exact Operand.items_denote hsize ha.1 g hg
      · obtain rfl := List.mem_singleton.1 hy
        exact Operand.items_denote hsize ha.2 g hg

lemma Transfer.items_denote {t : Transfer} (ht : t.Valid s) :
    ∀ g ∈ (t.denote s).items, Key.toNat g < s.functions.length := by
  intro g hg
  obtain ⟨y, hy, hg⟩ := List.mem_flatMap.1 hg
  cases t with
  | ret => cases hy
  | goto l => cases hy
  | switch p cases ending => cases hy
  | diverge => cases hy
  | panic l => cases hy
  | branch c onTrue onFalse =>
    obtain rfl := List.mem_singleton.1 hy
    exact Operand.items_denote hsize ht.1 g hg
  | call p f xs l =>
    rcases List.mem_cons.1 hy with rfl | hy
    · exact Callee.items_denote hsize ht.1 g hg
    · obtain ⟨x, hx, rfl⟩ := List.mem_map.1 hy
      exact Operand.items_denote hsize (ht.2.1 x hx) g hg

end Items

lemma Transfer.successors_denote (hsize : s.labels.length ≤ UInt32.size) {t : Transfer} (ht : t.Valid s) :
    ∀ target ∈ (t.denote s).successors, Key.toNat target < s.labels.length := by
  intro target htarget
  cases t with
  | ret => cases htarget
  | diverge => cases htarget
  | goto l =>
    obtain rfl := List.mem_singleton.1 htarget
    exact Scope.toNat_block ht hsize
  | panic l =>
    obtain rfl := List.mem_singleton.1 htarget
    exact Scope.toNat_block ht hsize
  | call p f xs l =>
    obtain rfl := List.mem_singleton.1 htarget
    exact Scope.toNat_block ht.2.2 hsize
  | branch c onTrue onFalse =>
    rcases List.mem_cons.1 htarget with rfl | htarget
    · exact Scope.toNat_block ht.2.1 hsize
    · obtain rfl := List.mem_singleton.1 htarget
      exact Scope.toNat_block ht.2.2 hsize
  | switch p cases ending =>
    obtain ⟨hcases, hending⟩ := ht
    rcases List.mem_append.1 htarget with htarget | htarget
    · obtain ⟨c, hc, rfl⟩ := List.mem_map.1 htarget
      have hvalid : c.Valid s := by
        rcases List.mem_append.1 hc with hc | hc
        · exact hcases c hc
        · cases ending with
          | last c' =>
            obtain rfl := List.mem_singleton.1 hc
            exact hending
          | nothing => cases hc
          | otherwise l => cases hc
      exact Scope.toNat_block hvalid.2 hsize
    · cases ending with
      | otherwise l =>
        obtain rfl := List.mem_singleton.1 htarget
        exact Scope.toNat_block hending hsize
      | nothing => cases htarget
      | last c => cases htarget

lemma Transfer.hasTargets_denote (t : Transfer) : (t.denote s).HasTargets := by
  cases t with
  | switch p cases ending =>
    rw [denote, BlockIR.Transfer.HasTargets, List.length_append, List.length_map, List.length_map]
    cases ending.otherwise? with
    | none => exact .inl rfl
    | some l => exact .inr rfl
  | ret => trivial
  | goto l => trivial
  | branch c onTrue onFalse => trivial
  | call p f xs l => trivial
  | diverge => trivial
  | panic l => trivial

/-- A valid block with code from a text is resolved, where there are as many functions and blocks as names. -/
lemma Block.resolved_denote {m : Module} {b : Body} {k : Block} (hk : k.Valid s)
    (hfunctions : s.functions.length = m.functions.size) (hlabels : s.labels.length = b.blocks.size)
    (hsize : m.functions.size ≤ UInt32.size) (hblocks : b.blocks.size ≤ UInt32.size)
    (hpos : ∀ st ∈ k.statements, st.pos.isFake = false) (hend : k.terminator.pos.isFake = false) :
    (k.denote s).Resolved m b := by
  rw [← hfunctions] at hsize
  rw [← hlabels] at hblocks
  have hcontains : ∀ g : FuncId, Key.toNat g < s.functions.length → m.functions.contains g := by
    intro g hg
    rw [hfunctions] at hg
    exact decide_eq_true hg
  have hstatements : ∀ st ∈ (k.denote s).statements, ∃ st' ∈ k.statements, st'.denote s = st :=
    fun st hst => List.mem_map.1 hst
  refine ⟨fun target htarget => ?_, fun st hst g hg => ?_, fun g hg => ?_,
    Transfer.hasTargets_denote k.terminator.transfer, fun st hst => ?_, hend⟩
  · have hlt := Transfer.successors_denote hblocks hk.2 target htarget
    rw [hlabels] at hlt
    exact decide_eq_true hlt
  · obtain ⟨st', hst', rfl⟩ := hstatements st hst
    exact hcontains g (Action.items_denote hsize (hk.1 st' hst') g hg)
  · exact hcontains g (Transfer.items_denote hsize hk.2 g hg)
  · obtain ⟨st', hst', rfl⟩ := hstatements st hst
    exact hpos st' hst'

end Tree

section Positions

lemma Spells.exists_lexeme {ls : List Leaf} {ts rest : List Lexeme} (h : Spells ls ts rest) {l : Leaf}
    (hl : l ∈ ls) {p : Pos} (hp : l.pos = some p) : ∃ lx ∈ ts, lx.pos = p := by
  induction ls generalizing ts with
  | nil => cases hl
  | cons l' ls ih =>
    obtain ⟨lx, ts', rfl, hfits, h⟩ := h
    rcases List.mem_cons.1 hl with rfl | hl
    · exact ⟨lx, List.mem_cons_self, hfits.2 p hp⟩
    · obtain ⟨lx', hlx', hpos⟩ := ih h hl
      exact ⟨lx', List.mem_cons_of_mem _ hlx', hpos⟩

lemma Tree.Statement.exists_leaf (st : Statement) : ∃ l ∈ st.leaves, l.pos = some st.pos := by
  obtain ⟨tok, ls, hls⟩ := st.action.exists_leaves_eq
  rw [leaves, hls]
  exact ⟨_, List.mem_cons_self, rfl⟩

lemma Tree.Terminator.exists_leaf (t : Terminator) : ∃ l ∈ t.leaves, l.pos = some t.pos := by
  obtain ⟨tok, ls, hls⟩ := t.transfer.exists_leaves_eq
  rw [leaves, hls]
  exact ⟨_, List.mem_cons_self, rfl⟩

lemma Lexeme.isFake_pos_of_mem_ofText {source : String} {lx : Lexeme} (h : lx ∈ ofText source) :
    lx.pos.isFake = false := by
  have hline := ((scanned_ofText source).tile (splits_startPos source)).line_pos lx h
  rw [← (pos_of_mem_ofText h).1] at hline
  refine decide_eq_false fun hzero => ?_
  rw [hzero] at hline
  exact absurd hline (Nat.lt_irrefl 0)

end Positions

lemma Tree.isFake_of_spells {source : String} {t : Tree} (h : Spells t.leaves (Lexeme.ofText source) [])
    {f : Function} (hf : f ∈ t) {k : Block} (hk : k ∈ f.blocks) :
    (∀ st ∈ k.statements, st.pos.isFake = false) ∧ k.terminator.pos.isFake = false := by
  have hleaf : ∀ l ∈ k.leaves, ∀ p, l.pos = some p → p.isFake = false := by
    intro l hl p hp
    have hbody : l ∈ f.bodyLeaves :=
      List.mem_append_left _ (List.mem_append_right _ (List.mem_flatMap.2 ⟨k, hk, hl⟩))
    have htree : l ∈ t.leaves := List.mem_flatMap.2 ⟨f, hf, List.mem_append_right _ hbody⟩
    obtain ⟨lx, hlx, rfl⟩ := h.exists_lexeme htree hp
    exact Lexeme.isFake_pos_of_mem_ofText hlx
  constructor
  · intro st hst
    obtain ⟨l, hl, hp⟩ := st.exists_leaf
    refine hleaf l ?_ st.pos hp
    exact List.mem_append_left _ (List.mem_append_left _
      (List.mem_append_right _ (List.mem_flatMap.2 ⟨st, hst, hl⟩)))
  · obtain ⟨l, hl, hp⟩ := k.terminator.exists_leaf
    exact hleaf l (List.mem_append_left _ (List.mem_append_right _ hl)) k.terminator.pos hp

namespace Module

variable {name source : String} {m : Module}

lemma ReadAs.resolved {names : List String} {f : Tree.Function} {function : Function}
    (h : ReadAs names f function) (hnames : names.length = m.functions.size)
    (hsize : m.functions.size ≤ UInt32.size) (hblocks : function.body.blocks.size ≤ UInt32.size)
    (hpos : ∀ k ∈ f.blocks, (∀ st ∈ k.statements, st.pos.isFake = false) ∧ k.terminator.pos.isFake = false) :
    function.body.Resolved m := by
  have hlength := h.body.size
  refine ⟨?_, fun k hk => ?_⟩
  · have hne := List.length_pos_iff.2 f.blocks_ne_nil
    rw [← hlength] at hne
    exact decide_eq_true hne
  · rw [h.body.blocks_eq hblocks, Arena.toList_ofList] at hk
    obtain ⟨k', hk', rfl⟩ := List.mem_map.1 hk
    refine Tree.Block.resolved_denote (h.body.2.1 k' hk') hnames ?_ hsize hblocks (hpos k' hk').1 (hpos k' hk').2
    rw [List.length_map]
    exact hlength.symm

lemma exists_functions_of_parse (h : Module.parse name source = .ok m) :
    ∃ t : Tree, Spells t.leaves (Lexeme.ofText source) [] ∧ t.names.Nodup ∧ m.functions.size = t.length ∧
      (t.length ≤ UInt32.size → ∃ fs, List.Forall₂ (ReadAs t.names) t fs ∧ m = ofFunctions name fs) := by
  obtain ⟨t, ht, hnodup, hfollows⟩ := ofTokens_eq_ok_iff.1 (parse_eq_ok_iff.1 h)
  refine ⟨t, ht, hnodup, ?_, fun hsize => exists_functions [] ?_ hfollows⟩
  · rw [size_of_follows hfollows]
    exact Nat.zero_add _
  · rw [List.length_nil, Nat.zero_add]
    exact hsize

section Read

variable {names : List String} {t : Tree} {fs : List Function}

lemma names_of_readAs (h : List.Forall₂ (ReadAs names) t fs) : fs.map (·.name) = t.names := by
  induction h with
  | nil => rfl
  | cons hf _ ih => exact congrArg₂ List.cons hf.name ih

lemma exists_readAs (h : List.Forall₂ (ReadAs names) t fs) {function : Function} (hfunction : function ∈ fs) :
    ∃ f ∈ t, ReadAs names f function := by
  induction h with
  | nil => cases hfunction
  | @cons f g t fs hf _ ih =>
    rcases List.mem_cons.1 hfunction with rfl | hfunction
    · exact ⟨f, List.mem_cons_self, hf⟩
    · obtain ⟨f', hf', hread⟩ := ih hfunction
      exact ⟨f', List.mem_cons_of_mem _ hf', hread⟩

end Read

lemma keyed_of_parse (h : Module.parse name source = .ok m) (hsize : source.utf8ByteSize < 2 ^ 32) :
    m.Keyed := by
  obtain ⟨t, ht, -, hlength, hfunctions⟩ := exists_functions_of_parse h
  have hfits : t.Fits := Tree.fits_of_spells_ofText ht hsize
  obtain ⟨fs, hfs, rfl⟩ := hfunctions hfits.size
  refine ⟨hlength ▸ hfits.size, fun function hfunction => ?_⟩
  obtain ⟨f, hf, hread⟩ := exists_readAs hfs hfunction
  rw [hread.body.size]
  exact (hfits.functions f hf).blocks

lemma resolved_of_keyed (h : Module.parse name source = .ok m) (hkeyed : m.Keyed) : m.Resolved := by
  obtain ⟨t, ht, hnodup, hlength, hfunctions⟩ := exists_functions_of_parse h
  have hsize := hkeyed.functions
  obtain ⟨fs, hfs, rfl⟩ := hfunctions (hlength ▸ hsize)
  have hnames := names_of_readAs hfs
  have hfs_nodup : (fs.map (·.name)).Nodup := hnames ▸ hnodup
  refine ⟨hfs_nodup, fun n f => find?_ofFunctions_iff hfs_nodup ?_, fun function hfunction => ?_⟩
  · rw [← hfs.length_eq, ← hlength]
    exact hsize
  · obtain ⟨f, hf, hread⟩ := exists_readAs hfs hfunction
    refine hread.resolved ?_ hsize (hkeyed.blocks function hfunction)
      fun k hk => Tree.isFake_of_spells ht hf hk
    rw [hlength, Tree.names, List.length_map]

/-- What is parsed is resolved, before any check: functions are found by their different names, every body has
a block, all blocks and functions that code refers to exist, switches have targets for their values, and code
has positions. So all that a verifier can find is an undeclared local, or a call that names its callee and
gives it a wrong number of arguments. This is of modules whose functions and blocks have keys of 32 bits;
those of a text of less than 2^32 bytes do. -/
theorem resolved_of_parse {name source : String} {m : Module} (h : Module.parse name source = .ok m) :
    (m.Keyed → m.Resolved ∧ ∀ i ∈ m.issues, i.IsUndeclaredLocal m ∨ i.IsArgumentCount m) ∧
    (source.utf8ByteSize < 2 ^ 32 → m.Keyed) := by
  refine ⟨fun hkeyed => ?_, keyed_of_parse h⟩
  have hresolved := resolved_of_keyed h hkeyed
  exact ⟨hresolved, fun i hi => hresolved.issue hi⟩

/-- A text that is parsed although `f` reads a variable that it does not declare, and gives an argument to `g`,
which takes none and comes later. -/
def unchecked : String :=
  "fn f() \x7b a: \x7b return = call g(var0) -> b; \x7d b: \x7b return; \x7d \x7d fn g() \x7b c: \x7b goto -> c; \x7d \x7d"

theorem unchecked_is_resolved :
    ∃ m, Module.parse "m" unchecked = .ok m ∧ m.Keyed ∧ m.Resolved ∧
      m.issues.map (·.flaw) = [.undeclaredLocal (.var 0) "f", .argumentCount "g" 1 0] := by
  have hflaws : (Module.parse "m" unchecked).toOption.map (fun m => m.issues.map (·.flaw)) =
      some [.undeclaredLocal (.var 0) "f", .argumentCount "g" 1 0] := by
    decide +kernel
  cases h : Module.parse "m" unchecked with
  | error e =>
    rw [h] at hflaws
    cases hflaws
  | ok m =>
    rw [h] at hflaws
    obtain ⟨hresolved, hkeyed⟩ := resolved_of_parse h
    have hm := hkeyed (by decide +kernel)
    exact ⟨m, rfl, hm, (hresolved hm).1, Option.some.inj hflaws⟩

end Module

end BlockIR
