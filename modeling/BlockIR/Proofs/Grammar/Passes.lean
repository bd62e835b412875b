import BlockIR.Proofs.Grammar.Complaints
import BlockIR.Proofs.Grammar.Modules

/-!
# The passes of the parser agree

Names and labels are collected by counting braces, in any text. As far as the main pass comes, it finds the
functions and the blocks that were collected, and in the same order. So it never declares a function out of
turn and never misuses a draft.
-/

namespace BlockIR

namespace Scope

variable {names found : List String} {n : Nat} {r : Except Stop (List String)}

/-- Up to `n` further names are collected after those that were, or a name is repeated. -/
def Collects (names : List String) (n : Nat) : Except Stop (List String) → Prop
  | .ok found => names <+: found ∧ (names.Nodup → found.Nodup) ∧ found.length ≤ names.length + n
  | .error e => ¬ e.complaint.Internal

lemma Collects.succ (h : Collects names n r) : Collects names (n + 1) r := by
  cases r with
  | error e => exact h
  | ok found => exact ⟨h.1, h.2.1, Nat.le_succ_of_le h.2.2⟩

lemma Collects.concat {name : String} (hnew : name ∉ names) (h : Collects (names ++ [name]) n r) :
    Collects names (n + 1) r := by
  cases r with
  | error e => exact h
  | ok found =>
    obtain ⟨hextends, hnodup, hlength⟩ := h
    rw [List.length_append, List.length_singleton] at hlength
    refine ⟨(List.prefix_append _ _).trans hextends, fun hnames => hnodup (nodup_concat hnames hnew), ?_⟩
    omega

lemma collects_functionNames (depth : Nat) (names : List String) (ts : List Lexeme) :
    Collects names ts.length (functionNames depth names ts) := by
  induction ts generalizing depth names with
  | nil => exact ⟨List.prefix_rfl, id, Nat.le_refl _⟩
  | cons lx ts ih =>
    rw [functionNames.eq_def, List.length_cons]
    dsimp only
    split
    · exact (ih _ _).succ
    · exact (ih _ _).succ
    · split
      · split
        · rintro ⟨⟩
        · exact (ih _ _).concat ‹_›
      · exact (ih _ _).succ
    · exact (ih _ _).succ

lemma collects_blockLabels (depth : Nat) (labels : List String) (ts : List Lexeme) :
    Collects labels ts.length (blockLabels depth labels ts) := by
  induction ts generalizing depth labels with
  | nil => exact ⟨List.prefix_rfl, id, Nat.le_refl _⟩
  | cons lx ts ih =>
    rw [blockLabels, List.length_cons]
    split
    · exact (ih _ _).succ
    · split
      · exact ⟨List.prefix_rfl, id, Nat.le_add_right _ _⟩
      · exact (ih _ _).succ
    · split
      · split
        · rintro ⟨⟩
        · exact (ih _ _).concat ‹_›
      · exact (ih _ _).succ
    · exact (ih _ _).succ

lemma key?_of_prefix {κ : Type} [Key κ] {name : String} (hnew : name ∉ names)
    (hextends : names ++ [name] <+: found) : key? found name = some (Key.ofNat names.length : κ) := by
  obtain ⟨more, rfl⟩ := hextends
  rw [List.append_assoc, List.singleton_append]
  refine key?_eq_some_iff.2 ⟨List.mem_append_right _ List.mem_cons_self, ?_⟩
  rw [idxOf_append_cons hnew]

end Scope

namespace Draft

variable {d : Draft}

/-- The current block of a draft has no terminator. -/
def IsOpen (d : Draft) : Prop :=
  ∃ id xs b ys, d.current = some id ∧ Key.toNat id = xs.length ∧ d.blocks = (xs ++ b :: ys).toArray ∧
    b.terminator = none

lemma IsOpen.append (h : d.IsOpen) (s : Statement) : ∃ d', d.append s = .ok d' ∧ d'.IsOpen := by
  obtain ⟨id, xs, b, ys, hcurrent, hid, hblocks, hopen⟩ := h
  exact ⟨_, append_eq hcurrent hid hblocks hopen s, id, xs, _, ys, hcurrent, hid, rfl, rfl⟩

lemma IsOpen.terminate (h : d.IsOpen) (t : Terminator) : ∃ d', d.terminate t = .ok d' := by
  obtain ⟨id, xs, b, ys, hcurrent, hid, hblocks, hopen⟩ := h
  exact ⟨_, terminate_eq hcurrent hid hblocks hopen t⟩

end Draft

namespace Parser

section Functions

/-- What stands before the body of a function. -/
structure Head where
  attrs : Array Attribute
  name : String
  /-- The token of the name. -/
  lexeme : Lexeme
  args : Nat
  /-- The token of the opening brace. -/
  opening : Lexeme
deriving DecidableEq

def head : Parser Head := do
  let attrs ← loop attrs #[]
  discard <| expect (.keyword .fn) "`fn`"
  let (name, lexeme) ← ident "a function name"
  let args ← params
  let opening ← expectMark .curlyOpen "`\x7b` to begin function body"
  return ⟨attrs, name, lexeme, args, opening⟩

lemma function_eq (names : List String) (m : Module) :
    function names m = head >>= fun h =>
      if Scope.key? names h.name = some m.functions.nextKey then
        body names h.name h.args h.opening >>= fun b =>
          pure ((m.declare h.name h.attrs.toList).define m.functions.nextKey b)
      else reject h.lexeme (.outOfTurn h.name) := by
  simp only [function, head, bind_assoc, pure_bind]

variable {ts rest : List Lexeme} {h : Head}

lemma spells_head (hhead : head ts = .ok (h, rest)) :
    ∃ (as : List Tree.Attr) (ps : List UInt32), Spells (as.flatMap Tree.Attr.leaves ++
      ([.word .fn, .ident h.name] ++ (([.mark .parenOpen] ++ Leaf.commas (ps.map Tree.paramLeaves) ++
        [.mark .parenClose]) ++ [.mark .curlyOpen]))) ts rest := by
  unfold head at hhead
  simp only [bind_eq_ok_iff (p := loop attrs _), attrs_eq_ok_iff, expect_bind_eq_ok_iff,
    bind_eq_ok_iff (p := ident _), Prod.exists, ident_eq_ok_iff, bind_eq_ok_iff (p := params),
    params_eq_ok_iff, bind_eq_ok_iff (p := expectMark _ _), expectMark_eq_ok_iff, pure_eq_ok_iff] at hhead
  obtain ⟨_, m₁, ⟨as, has, -⟩, m₂, hfn, name, lx, m₃, ⟨rfl, hname⟩, _, m₄, ⟨ps, hps, -⟩, opening, m₅,
    ⟨rfl, hopen⟩, rfl, rfl⟩ := hhead
  have hident : Spells [.ident name] (lx :: m₃) m₃ := Spells.of_iff.2 ⟨lx, rfl, hname⟩
  have hmark : Spells [.mark .curlyOpen] (opening :: m₅) m₅ := Spells.of_iff.2 ⟨opening, rfl, hopen⟩
  exact ⟨as, ps, has.append ((hfn.append hident).append (hps.append hmark))⟩

lemma functionNames_head {names found : List String} (hhead : head ts = .ok (h, rest))
    (hnames : Scope.functionNames 0 names ts = .ok found) : h.name ∉ names ∧ names ++ [h.name] <+: found := by
  obtain ⟨as, ps, hs⟩ := spells_head hhead
  obtain ⟨m₁, has, lx, _, rfl, hfn, hs⟩ := Spells.append_iff.1 hs
  obtain ⟨lx', m₂, rfl, hname, -⟩ := hs
  have houter : (as.flatMap Tree.Attr.leaves).all Leaf.isOuter := by
    rw [List.all_flatMap, List.all_eq_true]
    exact fun a _ => a.all_leaves
  rw [Scope.functionNames_outer houter has, Scope.functionNames_fn hfn.1 hname.1] at hnames
  have hcollects := Scope.collects_functionNames 0 (names ++ [h.name]) (lx' :: m₂)
  rw [hnames.2] at hcollects
  exact ⟨hnames.1, hcollects.1⟩

/-- The main pass has read the head of a function: the names of all functions are collected, and those before
it are in the module. -/
structure Declares (name : String) (ts : List Lexeme) (names : List String) (m : Module) (h : Head)
    (rest : List Lexeme) : Prop where
  collected : Scope.functionNames 0 [] ts = .ok names
  reached : ∃ ts', Reaches (functions names) (.empty name) ts m ts' ∧ head ts' = .ok (h, rest)

lemma size_define_declare (m : Module) (name : String) (attrs : List Attribute) (f : FuncId) (b : Body) :
    ((m.declare name attrs).define f b).functions.size = m.functions.size + 1 := by
  simp only [Module.define, Module.declare, Arena.size, Arena.modify, Arena.push, Array.size_modify,
    Array.size_push]

lemma function_of_functions {names : List String} {m m' : Module}
    (hround : functions names m ts = .ok (.inl m', rest)) : function names m ts = .ok (m', rest) := by
  unfold functions at hround
  rw [front?_bind] at hround
  cases ts with
  | nil => cases hround
  | cons lx ts =>
    obtain ⟨m₁, mid, hfunction, hround⟩ := bind_eq_ok_iff.1 hround
    obtain ⟨heq, rfl⟩ := pure_eq_ok_iff.1 hround
    cases heq
    exact hfunction

/-- The functions that the main pass has read are the first of those whose names are collected. -/
lemma exists_tree_of_reaches {name : String} {names : List String} {m : Module}
    (hnames : Scope.functionNames 0 [] ts = .ok names)
    (hreach : Reaches (functions names) (.empty name) ts m rest) :
    ∃ t : Tree, Spells t.leaves ts rest ∧ m.functions.size = t.length ∧
      Scope.functionNames 0 t.names rest = .ok names := by
  -- Each round reads one more function, whose name is that which the collecting of names adds next.
  induction hreach with
  | refl => exact ⟨[], rfl, rfl, hnames⟩
  | tail _ hround ih =>
    obtain ⟨t, ht, hsize, hrest⟩ := ih
    obtain ⟨f, hf, -, -, -, b, -, rfl⟩ := function_eq_ok_iff.1 (function_of_functions hround)
    have hleaves : (t ++ [f]).leaves = t.leaves ++ f.leaves := by
      rw [Tree.leaves, List.flatMap_append, List.flatMap_singleton]
      rfl
    refine ⟨t ++ [f], ?_, ?_, ?_⟩
    · rw [hleaves]
      exact ht.append hf
    · rw [size_define_declare, hsize, List.length_append, List.length_singleton]
    · rw [Tree.names, List.map_append, List.map_singleton]
      exact ((Scope.functionNames_function hf).1 hrest).2

lemma Declares.key?_eq {name : String} {names : List String} {m : Module}
    (hd : Declares name ts names m h rest) : Scope.key? names h.name = some m.functions.nextKey := by
  obtain ⟨hnames, ts', hreach, hhead⟩ := hd
  obtain ⟨t, -, hsize, hrest⟩ := exists_tree_of_reaches hnames hreach
  obtain ⟨hnew, hextends⟩ := functionNames_head hhead hrest
  rw [Scope.key?_of_prefix hnew hextends, Arena.nextKey, hsize, Tree.names, List.length_map]

end Functions

section Blocks

variable {s : Scope} {d : Draft} {ts rest : List Lexeme} {label : String} {b : BlockId} {lx : Lexeme}

/-- What stands before the lines of a block: its label, the key of the label, and the token of the label. -/
def blockHead (s : Scope) : Parser (String × BlockId × Lexeme) := do
  let (label, lx) ← ident "a block label"
  match s.block? label with
  | none => reject lx (.unknownBlock label)
  | some b =>
    discard <| expectMark .colon "`:` after block label"
    discard <| expectMark .curlyOpen "`\x7b` to begin block"
    return (label, b, lx)

lemma block_eq (s : Scope) (d : Draft) :
    block s d = blockHead s >>= fun (_, b, lx) =>
      drafted lx (d.switchTo b) >>= fun d => loop (line s) d >>= fun d =>
        discard (expectMark .curlyClose "`\x7d` after terminator") >>= fun _ => pure d := by
  unfold block blockHead
  rw [bind_assoc]
  congr 1
  funext ⟨label, lx⟩
  dsimp only
  cases s.block? label with
  | none => rfl
  | some b => simp only [bind_assoc, pure_bind]

lemma blockHead_eq_ok (hhead : blockHead s ts = .ok ((label, b, lx), rest)) :
    s.block? label = some b ∧ Spells [.ident label, .mark .colon, .mark .curlyOpen] ts rest := by
  unfold blockHead at hhead
  obtain ⟨⟨label', lx'⟩, m₁, hident, hmarks⟩ := bind_eq_ok_iff.1 hhead
  obtain ⟨rfl, hlabel⟩ := ident_eq_ok_iff.1 hident
  dsimp only at hmarks
  cases hb : s.block? label' with
  | none =>
    rw [hb] at hmarks
    cases hmarks
  | some b' =>
    simp only [hb, expectMark_bind_eq_ok_iff, pure_eq_ok_iff] at hmarks
    obtain ⟨m₂, hcolon, m₃, hopen, heq, rfl⟩ := hmarks
    cases heq
    have hspells : Spells [.ident label] (lx :: m₁) m₁ := Spells.of_iff.2 ⟨lx, rfl, hlabel⟩
    exact ⟨hb, (hspells.append hcolon).append hopen⟩

/-- Some blocks of a draft are filled: those of the labels that were collected first. The others are empty. -/
structure Filled (s : Scope) (d : Draft) (ts : List Lexeme) (labels : List String) (ks : List Block) :
    Prop where
  length : labels.length = ks.length
  rest : Scope.blockLabels 0 labels ts = .ok s.labels
  blocks : d.blocks =
    (ks.map OpenBlock.ofBlock ++ List.replicate (s.labels.length - ks.length) OpenBlock.empty).toArray

namespace Filled

variable {labels : List String} {ks : List Block}

lemma next {l lcolon : Lexeme} (h : Filled s d (l :: lcolon :: ts) labels ks) (hlabel : l.token = .ident label)
    (hcolon : lcolon.token = .mark .colon) (hsize : s.labels.length ≤ UInt32.size) :
    label ∉ labels ∧ labels ++ [label] <+: s.labels ∧ s.block? label = some (Key.ofNat ks.length) ∧
      Key.toNat (Key.ofNat ks.length : BlockId) = ks.length := by
  obtain ⟨hnew, hrest⟩ := (Scope.blockLabels_label hlabel hcolon).1 h.rest
  have hcollects := Scope.collects_blockLabels 0 (labels ++ [label]) (lcolon :: ts)
  rw [hrest] at hcollects
  have hlength := hcollects.1.length_le
  rw [List.length_append, List.length_singleton, h.length] at hlength
  have hkey : s.block? label = some (Key.ofNat labels.length) := Scope.key?_of_prefix hnew hcollects.1
  rw [h.length] at hkey
  exact ⟨hnew, hcollects.1, hkey, Key.toNat_ofNat (by omega)⟩

lemma blocks_eq (h : Filled s d ts labels ks) (hlt : ks.length < s.labels.length) :
    d.blocks = (ks.map OpenBlock.ofBlock ++
      OpenBlock.empty :: List.replicate (s.labels.length - (ks.length + 1)) OpenBlock.empty).toArray := by
  have hsucc : s.labels.length - ks.length = s.labels.length - (ks.length + 1) + 1 := by omega
  rw [h.blocks, hsucc, List.replicate_succ]

lemma getElem?_blocks (h : Filled s d ts labels ks) (hlt : ks.length < s.labels.length) :
    d.blocks[ks.length]? = some .empty := by
  have hlength : ks.length = (ks.map OpenBlock.ofBlock).length := List.length_map _ |>.symm
  rw [h.blocks_eq hlt, List.getElem?_toArray, hlength, List.getElem?_append_right (Nat.le_refl _), Nat.sub_self]
  rfl

lemma started (h : Filled s d ts labels ks) (hsize : s.labels.length ≤ UInt32.size)
    (hhead : blockHead s ts = .ok ((label, b, lx), rest)) :
    Key.toNat b = ks.length ∧ ks.length < s.labels.length ∧ s.labels[ks.length]? = some label := by
  obtain ⟨hb, l, _, rfl, hlabel, lcolon, mid, rfl, hcolon, -⟩ := blockHead_eq_ok hhead
  obtain ⟨-, hextends, hkey, htoNat⟩ := h.next hlabel.1 hcolon.1 hsize
  obtain rfl := Option.some.inj (hb.symm.trans hkey)
  obtain ⟨more, hmore⟩ := hextends
  have hget : s.labels[ks.length]? = some label := by
    rw [← hmore, ← h.length, List.append_assoc, List.getElem?_append_right (Nat.le_refl _), Nat.sub_self]
    rfl
  exact ⟨htoNat, (List.getElem?_eq_some_iff.1 hget).1, hget⟩

/-- Reading a block fills the next one. -/
lemma step (h : Filled s d ts labels ks) (hsize : s.labels.length ≤ UInt32.size) {d' : Draft}
    (hblock : block s d ts = .ok (d', rest)) :
    ∃ label k, Filled s d' rest (labels ++ [label]) (ks ++ [k]) := by
  obtain ⟨t, ht, -, hfill⟩ := (block_reads ts d' rest).1 hblock
  have hrest := ((Scope.blockLabels_block ht).1 h.rest).2
  obtain ⟨l, _, rfl, hlabel, lcolon, mid, rfl, hcolon, -⟩ := ht
  obtain ⟨-, hextends, hkey, htoNat⟩ := h.next hlabel.1 hcolon.1 hsize
  have hlength := hextends.length_le
  rw [List.length_append, List.length_singleton, h.length] at hlength
  have hid : Key.toNat (s.block t.label) = (ks.map OpenBlock.ofBlock).length := by
    rw [(Scope.block?_eq_some_iff.1 hkey).2, htoNat, List.length_map]
  rw [Draft.fill_eq hid (h.blocks_eq hlength)] at hfill
  cases hfill
  refine ⟨t.label, t.denote s, ?_, hrest, ?_⟩
  · rw [List.length_append, List.length_append, h.length]
    rfl
  · rw [List.map_append, List.append_assoc, List.length_append]
    rfl

lemma ended (h : Filled s d ts labels ks) (hclose : ts.head?.map (·.token) = some (.mark .curlyClose)) :
    d.blocks = (ks.map OpenBlock.ofBlock).toArray := by
  have hlabels : labels = s.labels := by
    have hrest := h.rest
    cases ts with
    | nil => cases hclose
    | cons l ts =>
      rw [Scope.blockLabels_close (Option.some.inj hclose)] at hrest
      exact Except.ok.inj hrest
  rw [h.blocks, ← hlabels, h.length, Nat.sub_self, List.replicate_zero, List.append_nil]

end Filled

lemma block_of_blocks {d' : Draft} (hround : blocks s d ts = .ok (.inl d', rest)) :
    block s d ts = .ok (d', rest) := by
  unfold blocks at hround
  rw [nextIs_bind] at hround
  split at hround
  · cases hround
  · obtain ⟨d₁, mid, hblock, hround⟩ := bind_eq_ok_iff.1 hround
    obtain ⟨heq, rfl⟩ := pure_eq_ok_iff.1 hround
    cases heq
    exact hblock

lemma closes_of_blocks {d' : Draft} (hround : blocks s d ts = .ok (.inr d', rest)) :
    ts.head?.map (·.token) = some (.mark .curlyClose) ∧ d = d' ∧ ts = rest := by
  unfold blocks at hround
  rw [nextIs_bind] at hround
  split at hround
  case isTrue hclose =>
    obtain ⟨heq, rfl⟩ := pure_eq_ok_iff.1 hround
    cases heq
    exact ⟨of_decide_eq_true hclose, rfl, rfl⟩
  case isFalse =>
    obtain ⟨d₁, mid, -, hround⟩ := bind_eq_ok_iff.1 hround
    cases hround

lemma exists_filled_of_reaches {d₀ : Draft} {ts' : List Lexeme} (hd₀ : d₀.blocks = #[])
    (hlabels : Scope.blockLabels 0 [] ts = .ok s.labels) (hsize : s.labels.length ≤ UInt32.size)
    (hreach : Reaches (blocks s) (d₀.createBlocks s.labels.length) ts d ts') :
    ∃ labels ks, Filled s d ts' labels ks := by
  induction hreach with
  | refl =>
    refine ⟨[], [], rfl, hlabels, ?_⟩
    rw [Draft.createBlocks_eq, hd₀]
    simp
  | tail _ hround ih =>
    obtain ⟨labels, ks, hfilled⟩ := ih
    obtain ⟨label, k, hfilled⟩ := hfilled.step hsize (block_of_blocks hround)
    exact ⟨_, _, hfilled⟩

lemma blocks_of_decls {d₀ : Draft} (hdecls : loop decl d ts = .ok (d₀, rest)) : d₀.blocks = d.blocks := by
  obtain ⟨l, -, hfollows, -⟩ := decls_eq_ok_iff.1 hdecls
  clear hdecls
  induction l generalizing d with
  | nil =>
    cases hfollows
    rfl
  | cons t l ih =>
    obtain ⟨d₁, ht, hl⟩ := hfollows
    rw [ih hl]
    cases t with
    | var i =>
      obtain ⟨-, rfl⟩ := ht
      rfl
    | temp i =>
      obtain ⟨-, rfl⟩ := ht
      rfl

lemma safe_line (hopen : d.IsOpen) : (line s d).Safe := by
  refine (safe_peek _).bind fun lx => (safe_action s lx).bind fun x => ?_
  cases x with
  | inl a =>
    obtain ⟨d', hd', -⟩ := hopen.append ⟨a, lx.pos⟩
    exact (safe_drafted hd').bind fun d' => safe_pure _
  | inr t =>
    obtain ⟨d', hd'⟩ := hopen.terminate ⟨t, lx.pos⟩
    exact (safe_drafted hd').bind fun d' => safe_pure _

lemma isOpen_of_reaches {d' : Draft} (hopen : d.IsOpen) (hreach : Reaches (line s) d ts d' rest) :
    d'.IsOpen := by
  induction hreach with
  | refl => exact hopen
  | tail _ hround ih =>
    rcases line_eq_ok_iff.1 hround with ⟨t, d₁, -, -, hd₁, heq⟩ | ⟨t, d₁, -, -, -, heq⟩
    · cases heq
      obtain ⟨d₂, hd₂, hopen⟩ := ih.append (t.denote s)
      obtain rfl := Except.ok.inj (hd₂.symm.trans hd₁)
      exact hopen
    · cases heq

lemma shortens_line (s : Scope) : Shortens (line s) := by
  intro d ts d' ts' hround
  rcases line_eq_ok_iff.1 hround with ⟨t, d₁, ht, -⟩ | ⟨t, d₁, -, -, -, heq⟩
  · refine ht.length_lt ?_
    obtain ⟨u, ls, hleaves⟩ := t.action.exists_leaves_eq
    rw [Tree.Statement.leaves, hleaves]
    exact List.cons_ne_nil _ _
  · cases heq

lemma safe_lines (hopen : d.IsOpen) : (loop (line s) d).Safe :=
  fun _ => safeAt_loop (shortens_line s) fun _ ts' hreach => safe_line (isOpen_of_reaches hopen hreach) ts'

lemma safe_blockHead : (blockHead s).Safe := by
  refine (safe_ident _).bind fun (label, lx) => ?_
  dsimp only
  split
  · exact safe_reject nofun
  · exact (safe_mark _ _).bind fun _ => (safe_mark _ _).bind fun _ => safe_pure _

lemma safeAt_block {labels : List String} {ks : List Block} (hfilled : Filled s d ts labels ks)
    (hsize : s.labels.length ≤ UInt32.size) : (block s d).SafeAt ts := by
  rw [block_eq]
  refine (safe_blockHead ts).bind fun (label, b, lx) mid hhead => ?_
  obtain ⟨hb, hlt, -⟩ := hfilled.started hsize hhead
  have hswitch : d.switchTo b = .ok { d with current := some b } := by
    refine if_pos ?_
    rw [hb, hfilled.blocks, List.size_toArray, List.length_append, List.length_map, List.length_replicate]
    omega
  have hopen : Draft.IsOpen { d with current := some b } :=
    ⟨b, _, _, _, rfl, hb.trans (List.length_map OpenBlock.ofBlock).symm, hfilled.blocks_eq hlt, rfl⟩
  dsimp only
  rw [hswitch, drafted, pure_bind]
  exact ((safe_lines hopen).bind fun d' => (safe_mark _ _).bind fun _ => safe_pure _) mid

end Blocks

section Agreement

variable {name : String} {ts rest : List Lexeme} {names : List String} {m : Module} {h : Head}

/-- The main pass has come to a block of a function, or to its closing brace: the declarations are read, the
labels are collected and their blocks created, and the blocks before are filled. -/
def InBody (name : String) (ts : List Lexeme) (s : Scope) (d : Draft) (ts' : List Lexeme) : Prop :=
  ∃ m h rest d₀ mid, Declares name ts s.functions m h rest ∧
    loop decl (.start (UInt32.ofNat h.args)) rest = .ok (d₀, mid) ∧ Scope.blockLabels 0 [] mid = .ok s.labels ∧
    Reaches (blocks s) (d₀.createBlocks s.labels.length) mid d ts'

lemma Declares.size_le (hd : Declares name ts names m h rest) : m.functions.size ≤ ts.length := by
  obtain ⟨hnames, ts', hreach, -⟩ := hd
  obtain ⟨t, ht, hsize, -⟩ := exists_tree_of_reaches hnames hreach
  have hcount : t.length ≤ t.leaves.length := by
    refine length_le_length_flatMap _ (fun f => ?_) t
    rw [f.leaves_eq]
    simp
  have hlength := ht.length_eq
  omega

lemma Declares.length_le (hd : Declares name ts names m h rest) : rest.length ≤ ts.length := by
  obtain ⟨hnames, ts', hreach, hhead⟩ := hd
  obtain ⟨t, ht, -⟩ := exists_tree_of_reaches hnames hreach
  obtain ⟨as, ps, hs⟩ := spells_head hhead
  have hbefore := ht.length_eq
  have hlength := hs.length_eq
  omega

lemma InBody.exists_filled {s : Scope} {d : Draft} (hin : InBody name ts s d rest)
    (hsize : ts.length ≤ UInt32.size) :
    s.labels.length ≤ UInt32.size ∧ ∃ labels ks, Filled s d rest labels ks := by
  obtain ⟨m, h, ts', d₀, mid, hd, hdecls, hlabels, hreach⟩ := hin
  obtain ⟨l, hl, -⟩ := decls_eq_ok_iff.1 hdecls
  have hcollects := Scope.collects_blockLabels 0 [] mid
  rw [hlabels] at hcollects
  have hcount : s.labels.length ≤ 0 + mid.length := hcollects.2.2
  have hbefore := hd.length_le
  have hlength := hl.length_eq
  have hle : s.labels.length ≤ UInt32.size := by omega
  exact ⟨hle, exists_filled_of_reaches (blocks_of_decls hdecls) hlabels hle hreach⟩

lemma safe_head : head.Safe := by
  refine (safe_attrs _).bind fun as => (safe_discard_expect _ _).bind fun _ => (safe_ident _).bind fun x => ?_
  exact safe_params.bind fun n => (safe_expect _ _).bind fun opening => safe_pure _

lemma shortens_blocks (s : Scope) : Shortens (blocks s) := by
  intro d ts d' ts' hround
  obtain ⟨t, ht, -⟩ := (block_reads ts d' ts').1 (block_of_blocks hround)
  exact ht.length_lt (List.cons_ne_nil _ _)

lemma safeAt_body (hsize : ts.length ≤ UInt32.size) (hd : Declares name ts names m h rest) :
    (body names h.name h.args h.opening).SafeAt rest := by
  unfold body
  refine (safe_decls _ rest).bind fun d₀ mid hdecls => ?_
  refine (safeAt_lookAhead fun e he => ?_).bind fun labels mid' hlook => ?_
  · have hcollects := Scope.collects_blockLabels 0 [] mid
    rw [he] at hcollects
    exact hcollects
  obtain ⟨hlabels, rfl⟩ := lookAhead_eq_ok_iff.1 hlook
  have hin (d : Draft) (ts' : List Lexeme)
      (hreach : Reaches (blocks ⟨names, labels⟩) (d₀.createBlocks labels.length) mid d ts') :
      InBody name ts ⟨names, labels⟩ d ts' := ⟨m, h, rest, d₀, mid, hd, hdecls, hlabels, hreach⟩
  split
  · exact safe_reject (c := .noBlocks h.name) nofun mid
  · refine (safeAt_loop (shortens_blocks _) fun d ts' hreach => ?_).bind fun d ts' hloop => ?_
    · obtain ⟨hle, labels', ks, hfilled⟩ := (hin d ts' hreach).exists_filled hsize
      unfold blocks
      rw [SafeAt, nextIs_bind]
      split
      · exact safe_pure _ ts'
      · exact (safeAt_block hfilled hle).bind fun d' mid' _ => safe_pure _ mid'
    · obtain ⟨d', ts'', hreach, hend⟩ := reaches_of_loop hloop
      obtain ⟨hclose, rfl, rfl⟩ := closes_of_blocks hend
      obtain ⟨-, labels', ks, hfilled⟩ := (hin _ _ hreach).exists_filled hsize
      rw [Draft.finish_eq (hfilled.ended hclose)]
      exact ((safe_expect _ _).bind fun closing => safe_pure _) _

lemma shortens_functions (names : List String) : Shortens (functions names) := by
  intro m ts m' ts' hround
  obtain ⟨f, hf, -⟩ := function_eq_ok_iff.1 (function_of_functions hround)
  refine hf.length_lt ?_
  rw [f.leaves_eq]
  simp

lemma safeAt_module (name : String) (hsize : ts.length ≤ UInt32.size) : (module name).SafeAt ts := by
  unfold module
  refine (safeAt_lookAhead fun e he => ?_).bind fun names mid hlook => ?_
  · have hcollects := Scope.collects_functionNames 0 [] ts
    rw [he] at hcollects
    exact hcollects
  obtain ⟨hnames, rfl⟩ := lookAhead_eq_ok_iff.1 hlook
  refine safeAt_loop (shortens_functions names) fun m ts' hreach => ?_
  have hfunction : (function names m).SafeAt ts' := by
    rw [function_eq]
    refine (safe_head ts').bind fun h rest hhead => ?_
    have hd : Declares name ts names m h rest := ⟨hnames, ts', hreach, hhead⟩
    rw [if_pos hd.key?_eq]
    exact (safeAt_body hsize hd).bind fun b mid _ => safe_pure _ mid
  unfold functions
  rw [SafeAt, front?_bind]
  cases ts' with
  | nil => exact safe_pure _ []
  | cons lx ts' => exact hfunction.bind fun m' mid _ => safe_pure _ mid

lemma exists_ofStop_of_parse {source : String} {e : ParseError} (he : Module.parse name source = .error e) :
    ∃ stop, module name (Lexeme.ofText source) = .error stop ∧ .ofStop (Lexeme.ofText source) stop = e := by
  unfold Module.parse Module.ofTokens at he
  dsimp only at he
  cases hmodule : module name (Lexeme.ofText source) with
  | ok r =>
    rw [hmodule] at he
    cases he
  | error stop =>
    rw [hmodule] at he
    exact ⟨stop, rfl, Except.error.inj he⟩

lemma exists_stop_of_parse {source : String} {e : ParseError} (he : Module.parse name source = .error e) :
    ∃ stop, module name (Lexeme.ofText source) = .error stop ∧ e.complaint = stop.complaint := by
  obtain ⟨stop, hstop, rfl⟩ := exists_ofStop_of_parse he
  refine ⟨stop, hstop, ?_⟩
  cases stop <;> rfl

/-- The passes of the parser agree on every text of less than 2^32 bytes, whether it is accepted or not. A
function is declared with the key that its name was given, which is its position. When a block is started, it
was created for its label and is empty. At the closing brace of a function all its blocks have a terminator.
So the parser ends, and it never complains of anything but the text. -/
theorem passes_agree (name source : String) (hsize : source.utf8ByteSize < 2 ^ 32) :
    (∀ names m h rest, Declares name (Lexeme.ofText source) names m h rest →
      Scope.key? names h.name = some m.functions.nextKey ∧ Key.toNat m.functions.nextKey = m.functions.size) ∧
    (∀ s d ts, InBody name (Lexeme.ofText source) s d ts →
      (∀ label b lx rest, blockHead s ts = .ok ((label, b, lx), rest) →
        s.labels[Key.toNat b]? = some label ∧ d.blocks[Key.toNat b]? = some .empty) ∧
      (ts.head?.map (·.token) = some (.mark .curlyClose) → ∀ b ∈ d.blocks, b.terminator.isSome)) ∧
    ∀ e, Module.parse name source = .error e → ¬ e.complaint.Internal := by
  have hlength := Lexeme.length_ofText_lt hsize
  have hle := Nat.le_of_lt hlength
  refine ⟨fun names m h rest hd => ⟨hd.key?_eq, ?_⟩, fun s d ts hin => ?_, fun e he => ?_⟩
  · exact Key.toNat_ofNat (Nat.lt_of_le_of_lt hd.size_le hlength)
  · obtain ⟨hlabels, labels, ks, hfilled⟩ := hin.exists_filled hle
    refine ⟨fun label b lx rest hhead => ?_, fun hclose b hb => ?_⟩
    · obtain ⟨hb, hlt, hlabel⟩ := hfilled.started hlabels hhead
      rw [hb]
      exact ⟨hlabel, hfilled.getElem?_blocks hlt⟩
    · rw [hfilled.ended hclose] at hb
      obtain ⟨k, -, rfl⟩ := List.mem_map.1 (List.mem_toArray.1 hb)
      rfl
  · obtain ⟨stop, hstop, hcomplaint⟩ := exists_stop_of_parse he
    rw [hcomplaint]
    exact safeAt_module name hle stop hstop

/-- A text whose second function is refused, for it has no blocks. -/
def halfway : String := "fn f() \x7b a: \x7b goto -> b; \x7d b: \x7b return; \x7d \x7d fn g() \x7b \x7d"

/-- The names in the first function of the text. -/
def halfwayScope : Scope := ⟨["f", "g"], ["a", "b"]⟩

/-- The first function where its second block has been created, but not filled. -/
def halfwayDraft : Draft := ⟨0, 0, 0, #[⟨#[], some ⟨.goto ⟨1⟩, ⟨1, 15⟩⟩⟩, .empty], some ⟨0⟩⟩

theorem halfway_passes_agree :
    halfway.utf8ByteSize < 2 ^ 32 ∧
    (∃ h rest, Declares "m" (Lexeme.ofText halfway) ["f", "g"] (.empty "m") h rest ∧
      Scope.key? ["f", "g"] h.name = some (⟨0⟩ : FuncId)) ∧
    (∃ ts lx rest, InBody "m" (Lexeme.ofText halfway) halfwayScope halfwayDraft ts ∧
      blockHead halfwayScope ts = .ok (("b", ⟨1⟩, lx), rest) ∧ halfwayDraft.blocks[1]? = some .empty) ∧
    (∃ d ts, InBody "m" (Lexeme.ofText halfway) halfwayScope d ts ∧
      ts.head?.map (·.token) = some (.mark .curlyClose) ∧ d.blocks.size = 2 ∧
      ∀ b ∈ d.blocks, b.terminator.isSome) ∧
    ∃ e, Module.parse "m" halfway = .error e ∧ e.complaint = .noBlocks "g" ∧ ¬ e.complaint.Internal := by
  have hsize : halfway.utf8ByteSize < 2 ^ 32 := by decide +kernel
  obtain ⟨hdeclares, hbodies, hcomplaints⟩ := passes_agree "m" halfway hsize
  have hnames : Scope.functionNames 0 [] (Lexeme.ofText halfway) = .ok ["f", "g"] := by decide +kernel
  have hhead : head (Lexeme.ofText halfway) = .ok (⟨#[], "f", ⟨.ident "f", ⟨1, 4, 1⟩⟩, 0,
      ⟨.mark .curlyOpen, ⟨1, 8, 1⟩⟩⟩, (Lexeme.ofText halfway).drop 5) := by
    decide +kernel
  have hd : Declares "m" (Lexeme.ofText halfway) ["f", "g"] (.empty "m") _ _ := ⟨hnames, _, .refl, hhead⟩
  have hdecls : loop decl (.start 0) ((Lexeme.ofText halfway).drop 5) =
      .ok (.start 0, (Lexeme.ofText halfway).drop 5) := by
    decide +kernel
  have hlabels : Scope.blockLabels 0 [] ((Lexeme.ofText halfway).drop 5) = .ok ["a", "b"] := by decide +kernel
  have hfirst : blocks halfwayScope ((Draft.start 0).createBlocks 2) ((Lexeme.ofText halfway).drop 5) =
      .ok (.inl halfwayDraft, (Lexeme.ofText halfway).drop 13) := by
    decide +kernel
  have hblock : blockHead halfwayScope ((Lexeme.ofText halfway).drop 13) =
      .ok (("b", ⟨1⟩, ⟨.ident "b", ⟨1, 28, 1⟩⟩), (Lexeme.ofText halfway).drop 16) := by
    decide +kernel
  have hsecond : blocks halfwayScope halfwayDraft ((Lexeme.ofText halfway).drop 13) =
      .ok (.inl ⟨0, 0, 0, #[⟨#[], some ⟨.goto ⟨1⟩, ⟨1, 15⟩⟩⟩, ⟨#[], some ⟨.ret, ⟨1, 33⟩⟩⟩], some ⟨1⟩⟩,
        (Lexeme.ofText halfway).drop 19) := by
    decide +kernel
  have hclose : ((Lexeme.ofText halfway).drop 19).head?.map (·.token) = some (.mark .curlyClose) := by decide +kernel
  have hin : InBody "m" (Lexeme.ofText halfway) halfwayScope halfwayDraft _ :=
    ⟨_, _, _, _, _, hd, hdecls, hlabels, .tail .refl hfirst⟩
  have hend : InBody "m" (Lexeme.ofText halfway) halfwayScope _ _ :=
    ⟨_, _, _, _, _, hd, hdecls, hlabels, .tail (.tail .refl hfirst) hsecond⟩
  have herror : (Module.parse "m" halfway).mapError (·.complaint) = .error (.noBlocks "g") := by decide +kernel
  refine ⟨hsize, ⟨_, _, hd, (hdeclares _ _ _ _ hd).1⟩, ?_, ?_, ?_⟩
  · exact ⟨_, _, _, hin, hblock, ((hbodies _ _ _ hin).1 _ _ _ _ hblock).2⟩
  · exact ⟨_, _, hend, hclose, rfl, (hbodies _ _ _ hend).2 hclose⟩
  · cases hparse : Module.parse "m" halfway with
    | ok m =>
      rw [hparse] at herror
      cases herror
    | error e =>
      rw [hparse] at herror
      exact ⟨e, rfl, Except.error.inj herror, hcomplaints e hparse⟩

end Agreement

end Parser

end BlockIR
