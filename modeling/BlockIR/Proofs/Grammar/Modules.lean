import BlockIR.Proofs.Grammar.Bodies
import BlockIR.Proofs.Nearest

/-!
# Parsing accepts its grammar

The parser accepts a text exactly if its tokens are the leaves of a valid derivation, and the module that
it gives is the one that the derivation denotes.
-/

namespace BlockIR

namespace Tree

/-- Adding a function to a module in its turn. -/
def Function.Adds (functions : List String) (m : Module) (f : Function) (m' : Module) : Prop :=
  (∀ a ∈ f.attrs, a.Valid) ∧ InOrder f.params ∧ Scope.key? functions f.name = some m.functions.nextKey ∧
    ∃ b, Drafts functions f.params.length f.decls f.blocks b ∧
      (m.declare f.name (f.attrs.map (·.denote))).define m.functions.nextKey b = m'

/-- The numbers of blocks and of locals of each kind fit in keys and indices. -/
structure Function.Fits (f : Function) : Prop where
  vars : f.vars.length < UInt32.size
  temps : f.temps.length < UInt32.size
  blocks : f.blocks.length ≤ UInt32.size

structure Fits (t : Tree) : Prop where
  size : t.length ≤ UInt32.size
  functions : ∀ f ∈ t, f.Fits

end Tree

namespace Parser

variable {ts rest : List Lexeme}

lemma function_eq_ok_iff {functions : List String} {m m' : Module} :
    function functions m ts = .ok (m', rest) ↔
      ∃ f : Tree.Function, Spells f.leaves ts rest ∧ f.Adds functions m m' := by
  unfold function
  simp only [bind_eq_ok_iff (p := loop attrs _), attrs_eq_ok_iff, expect_bind_eq_ok_iff,
    bind_eq_ok_iff (p := ident _), Prod.exists, ident_eq_ok_iff, bind_eq_ok_iff (p := params),
    params_eq_ok_iff, bind_eq_ok_iff (p := expectMark _ _), expectMark_eq_ok_iff]
  constructor
  · rintro ⟨_, m₁, ⟨as, has, ⟨hvas, has'⟩, -⟩, m₂, hfn, name, lx, m₃, ⟨rfl, hname⟩, _, m₄,
      ⟨ps, hps, hparams, rfl⟩, opening, m₅, ⟨rfl, hopen⟩, h⟩
    have hident : Spells [.ident name] (lx :: m₃) m₃ := Spells.of_iff.2 ⟨lx, rfl, hname⟩
    have hmark : Spells [.mark .curlyOpen] (opening :: m₅) m₅ := Spells.of_iff.2 ⟨opening, rfl, hopen⟩
    split_ifs at h with hkey
    · simp only [bind_eq_ok_iff, body_eq_ok_iff, pure_eq_ok_iff] at h
      obtain ⟨b, _, ⟨decls, bs, hne, hbody, hdrafts⟩, rfl, rfl⟩ := h
      refine ⟨⟨as, name, ps, decls, bs, hne⟩, ?_, hvas, hparams, hkey, b, hdrafts, ?_⟩
      · have hall := (((has.append hfn).append hident).append hps).append (hmark.append hbody)
        simp only [Tree.Function.leaves, Tree.Function.bodyLeaves, List.append_assoc, List.cons_append,
          List.nil_append] at hall ⊢
        exact hall
      · rw [has']
    · cases h
  · rintro ⟨⟨as, name, ps, decls, bs, hne⟩, h, hvas, hparams, hkey, b, hdrafts, rfl⟩
    have hleaves : (Tree.Function.mk as name ps decls bs hne).leaves = as.flatMap Tree.Attr.leaves ++
        ([.word .fn] ++ ([.ident name] ++
          (([.mark .parenOpen] ++ Leaf.commas (ps.map Tree.paramLeaves) ++ [.mark .parenClose]) ++
          ([.mark .curlyOpen] ++ (decls.flatMap Tree.Decl.leaves ++ bs.flatMap Tree.Block.leaves ++
            [.mark .curlyClose]))))) := by
      simp only [Tree.Function.leaves, Tree.Function.bodyLeaves, List.append_assoc, List.cons_append,
        List.nil_append]
    rw [hleaves] at h
    obtain ⟨m₁, has, h⟩ := Spells.append_iff.1 h
    obtain ⟨m₂, hfn, h⟩ := Spells.append_iff.1 h
    obtain ⟨m₃, hident, h⟩ := Spells.append_iff.1 h
    obtain ⟨m₄, hps, h⟩ := Spells.append_iff.1 h
    obtain ⟨m₅, hmark, hbody⟩ := Spells.append_iff.1 h
    have hfront : m₁.head?.map (·.token) ≠ some (.mark .hash) := by
      obtain ⟨lx, rfl, hl⟩ := Spells.of_iff.1 hfn
      intro hhash
      cases hl.symm.trans (Option.some.inj hhash)
    obtain ⟨lx, rfl, hname⟩ := Spells.of_iff.1 hident
    obtain ⟨opening, rfl, hopen⟩ := Spells.of_iff.1 hmark
    refine ⟨(as.map (·.denote)).toArray, m₁, ⟨as, has, ⟨hvas, rfl⟩, hfront⟩, lx :: m₃, hfn, name, lx, m₃,
      ⟨rfl, hname⟩, ps.length, opening :: m₅, ⟨ps, hps, hparams, rfl⟩, opening, m₅, ⟨rfl, hopen⟩, ?_⟩
    simp only [hkey, if_true, bind_eq_ok_iff, body_eq_ok_iff, pure_eq_ok_iff]
    exact ⟨b, rest, ⟨decls, bs, hne, hbody, hdrafts⟩, rfl, rfl⟩

lemma functions_eq_ok_iff {names : List String} {m m' : Module} :
    loop (functions names) m ts = .ok (m', rest) ↔
      ∃ t : Tree, Spells t.leaves ts rest ∧ Follows (fun m f m' => f.Adds names m m') m t m' ∧ rest = [] := by
  have hne : ∀ f : Tree.Function, f.leaves ≠ [] := by
    intro f
    rw [f.leaves_eq]
    simp
  have hround : ∀ (m : Module) ts r rest, functions names m ts = .ok (r, rest) ↔
      (∃ f m', Spells (Tree.Function.leaves f) ts rest ∧ f.Adds names m m' ∧ .inl m' = r) ∨
      (ts = [] ∧ ts = rest ∧ .inr m = r) := by
    intro m ts r rest
    unfold functions
    rw [front?_bind]
    cases ts with
    | nil =>
      constructor
      · intro h
        obtain ⟨rfl, rfl⟩ := pure_eq_ok_iff.1 h
        exact .inr ⟨rfl, rfl, rfl⟩
      · rintro (⟨f, m', h, -⟩ | ⟨-, rfl, rfl⟩)
        · have hlen := h.length_eq
          have hpos := List.length_pos_iff.2 (hne f)
          rw [List.length_nil] at hlen
          omega
        · rfl
    | cons lx ts =>
      simp only [List.head?_cons, Option.map_some, bind_eq_ok_iff, function_eq_ok_iff, pure_eq_ok_iff,
        reduceCtorEq, false_and, or_false]
      constructor
      · rintro ⟨m', _, ⟨f, hf, hadds⟩, rfl, rfl⟩
        exact ⟨f, m', hf, hadds, rfl⟩
      · rintro ⟨f, m', hf, hadds, rfl⟩
        exact ⟨m', rest, ⟨f, hf, hadds⟩, rfl, rfl⟩
  exact loop_eq_ok_iff_of_stops Tree.Function.leaves (fun ts => ts = []) hne hround

end Parser

namespace Module

lemma ofTokens_eq_ok_iff {name : String} {ts : List Lexeme} {m : Module} :
    ofTokens name ts = .ok m ↔ ∃ t : Tree, Spells t.leaves ts [] ∧ t.names.Nodup ∧
      Parser.Follows (fun m f m' => f.Adds t.names m m') (.empty name) t m := by
  have hmap : ofTokens name ts = .ok m ↔ ∃ rest, Parser.module name ts = .ok (m, rest) := by
    unfold ofTokens
    rcases Parser.module name ts with e | ⟨m', rest⟩
    · constructor
      · intro h
        cases h
      · rintro ⟨rest, h⟩
        cases h
    · constructor
      · intro h
        cases h
        exact ⟨rest, rfl⟩
      · rintro ⟨rest', h⟩
        cases h
        rfl
  rw [hmap]
  unfold Parser.module
  simp only [Parser.bind_eq_ok_iff, Parser.lookAhead_eq_ok_iff, Parser.functions_eq_ok_iff]
  constructor
  · rintro ⟨_, names, _, ⟨hnames, rfl⟩, t, ht, hfollows, rfl⟩
    obtain ⟨hnodup, rfl⟩ := (Scope.functionNames_tree .nil ht).1 hnames
    exact ⟨t, ht, hnodup, hfollows⟩
  · rintro ⟨t, ht, hnodup, hfollows⟩
    exact ⟨[], t.names, ts, ⟨(Scope.functionNames_tree .nil ht).2 ⟨hnodup, rfl⟩, rfl⟩, t, ht, hfollows, rfl⟩

/-- The module of functions whose keys are their positions. -/
def ofFunctions (name : String) (fs : List Function) : Module where
  name := name
  functions := .ofList fs
  names := .ofList ((fs.map (·.name)).zipIdx.map fun (f, i) => (f, Key.ofNat i))

lemma define_declare_ofFunctions (name : String) {fs : List Function} (hsize : fs.length < UInt32.size)
    (f : Function) :
    ((ofFunctions name fs).declare f.name f.attrs).define (ofFunctions name fs).functions.nextKey f.body =
      ofFunctions name (fs ++ [f]) := by
  have hkey : Key.toNat (ofFunctions name fs).functions.nextKey = fs.length := Key.toNat_ofNat hsize
  have hfunctions : ((Arena.ofList fs : Arena FuncId Function).push ⟨f.name, f.attrs, .undefined⟩).modify
      (ofFunctions name fs).functions.nextKey (fun g => { g with body := f.body }) = .ofList (fs ++ [f]) := by
    rw [Arena.modify, hkey]
    have hpush : ((Arena.ofList fs : Arena FuncId Function).push ⟨f.name, f.attrs, .undefined⟩).slots =
        (fs ++ (⟨f.name, f.attrs, .undefined⟩ : Function) :: []).toArray := by
      simp [Arena.push, Arena.ofList]
    rw [hpush, modify_toArray_append]
    rfl
  have hnames : (NameTable.ofList ((fs.map (·.name)).zipIdx.map fun (f, i) => (f, Key.ofNat i))).insert
      f.name (ofFunctions name fs).functions.nextKey =
      NameTable.ofList (((fs ++ [f]).map (·.name)).zipIdx.map fun (f, i) => (f, Key.ofNat i)) := by
    rw [List.map_append, List.zipIdx_append, List.map_append, NameTable.ofList, NameTable.ofList,
      List.foldl_append, Nat.zero_add, List.length_map]
    rfl
  unfold define declare
  simp only [ofFunctions] at hfunctions hnames ⊢
  rw [hfunctions, hnames]

lemma follows_adds_iff {names : List String} (added : Tree) {t : Tree} {name : String} {m : Module}
    (hnames : names = Tree.names (added ++ t)) (hnodup : names.Nodup) (hfits : Tree.Fits (added ++ t)) :
    Parser.Follows (fun m f m' => f.Adds names m m')
        (ofFunctions name (added.map (·.denote names))) t m ↔
      (∀ f ∈ t, f.Valid names) ∧ ofFunctions name ((added ++ t).map (·.denote names)) = m := by
  induction t generalizing added with
  | nil =>
    rw [List.append_nil]
    constructor
    · rintro rfl
      exact ⟨List.forall_mem_nil _, rfl⟩
    · rintro ⟨-, rfl⟩
      rfl
  | cons f t ih =>
    have hlength : added.length < UInt32.size := by
      have hsize := hfits.size
      rw [List.length_append, List.length_cons] at hsize
      omega
    have hkey : Scope.key? names f.name =
        some (ofFunctions name (added.map (·.denote names))).functions.nextKey := by
      have happend : names = Tree.names added ++ f.name :: Tree.names t := by
        rw [hnames, Tree.names, List.map_append]
        rfl
      have hnew : f.name ∉ Tree.names added := by
        intro hmem
        rw [happend] at hnodup
        exact Scope.not_nodup_of_mem hmem hnodup
      have hidx : names.idxOf f.name = added.length := by
        rw [happend, Scope.idxOf_append_cons hnew, Tree.names, List.length_map]
      refine Scope.key?_eq_some_iff.2 ⟨?_, ?_⟩
      · rw [happend]
        exact List.mem_append_right _ List.mem_cons_self
      · simp only [hidx, ofFunctions, Arena.nextKey, ← Arena.length_toList, Arena.toList_ofList,
          List.length_map]
    have hadds : ∀ m', f.Adds names (ofFunctions name (added.map (·.denote names))) m' ↔
        f.Valid names ∧ ofFunctions name ((added ++ [f]).map (·.denote names)) = m' := by
      intro m'
      obtain ⟨hvars, htemps, hblocks⟩ := hfits.functions f (by simp)
      have hsize : (added.map (·.denote names)).length < UInt32.size := by
        rw [List.length_map]
        exact hlength
      have hdefine := define_declare_ofFunctions name hsize (f.denote names)
      rw [Tree.Function.Adds, List.map_append, List.map_cons, List.map_nil, ← hdefine]
      simp only [Parser.drafts_iff hvars htemps hblocks]
      constructor
      · rintro ⟨hattrs, hparams, -, b, ⟨hv, ht, hlabels, hvalid, rfl⟩, rfl⟩
        exact ⟨⟨hattrs, hparams, hv, ht, hlabels, hvalid⟩, rfl⟩
      · rintro ⟨hf, rfl⟩
        exact ⟨hf.attrs, hf.params, hkey, _, ⟨hf.vars, hf.temps, hf.labels, hf.blocks, rfl⟩, rfl⟩
    have happend : added ++ f :: t = (added ++ [f]) ++ t := by
      rw [List.append_assoc]
      rfl
    rw [happend] at hnames hfits
    rw [List.forall_mem_cons, happend]
    constructor
    · rintro ⟨_, hf, h⟩
      obtain ⟨hvalid, rfl⟩ := (hadds _).1 hf
      obtain ⟨ht, rfl⟩ := (ih _ hnames hfits).1 h
      exact ⟨⟨hvalid, ht⟩, rfl⟩
    · rintro ⟨⟨hvalid, ht⟩, rfl⟩
      exact ⟨_, (hadds _).2 ⟨hvalid, rfl⟩, (ih _ hnames hfits).2 ⟨ht, rfl⟩⟩

lemma denote_eq_ofFunctions (t : Tree) (name : String) :
    t.denote name = ofFunctions name (t.map (·.denote t.names)) := by
  have hnames : (t.map (·.denote t.names)).map (·.name) = t.names := by
    rw [List.map_map]
    rfl
  rw [Tree.denote, ofFunctions, hnames]

/-- Tokens are read as the module that a derivation of them denotes, if keys can number its parts. -/
lemma ofTokens_eq_denote {name : String} {ts : List Lexeme} {t : Tree} (ht : Spells t.leaves ts [])
    (hvalid : t.Valid) (hfits : t.Fits) : ofTokens name ts = .ok (t.denote name) := by
  refine ofTokens_eq_ok_iff.2 ⟨t, ht, hvalid.names, ?_⟩
  rw [denote_eq_ofFunctions]
  exact (follows_adds_iff [] rfl hvalid.names hfits).2 ⟨hvalid.functions, rfl⟩

end Module

section Sizes

lemma length_le_length_flatMap {τ : Type} (leaves : τ → List Leaf) (hne : ∀ t, leaves t ≠ []) (l : List τ) :
    l.length ≤ (l.flatMap leaves).length := by
  induction l with
  | nil => exact Nat.le_refl _
  | cons t l ih =>
    have hpos := List.length_pos_iff.2 (hne t)
    rw [List.flatMap_cons, List.length_append, List.length_cons]
    omega

lemma length_le_length_flatMap_of_mem {τ : Type} (leaves : τ → List Leaf) {l : List τ} {t : τ} (h : t ∈ l) :
    (leaves t).length ≤ (l.flatMap leaves).length := by
  induction l with
  | nil => cases h
  | cons u l ih =>
    rw [List.flatMap_cons, List.length_append]
    rcases List.mem_cons.1 h with rfl | h
    · exact Nat.le_add_right _ _
    · exact Nat.le_add_left_of_le (ih h)

namespace Tree

lemma fits_of_length {t : Tree} (h : t.leaves.length < UInt32.size) : t.Fits := by
  have hfunctions : t.length ≤ t.leaves.length := by
    refine length_le_length_flatMap _ (fun f => ?_) t
    rw [f.leaves_eq]
    simp
  refine ⟨by omega, fun f hf => ?_⟩
  have hf := length_le_length_flatMap_of_mem Function.leaves hf
  have hdecls := length_le_length_flatMap Decl.leaves (fun _ => List.cons_ne_nil _ _) f.decls
  have hblocks := length_le_length_flatMap Block.leaves (fun _ => List.cons_ne_nil _ _) f.blocks
  have hbody : f.leaves.length = f.header.length + (f.attrs.flatMap Attr.leaves).length +
      (f.decls.flatMap Decl.leaves).length + (f.blocks.flatMap Block.leaves).length + 3 := by
    rw [f.leaves_eq]
    simp only [List.length_append, List.length_cons, List.length_nil]
    omega
  have hvars : f.vars.length ≤ f.decls.length := List.length_filterMap_le _ _
  have htemps : f.temps.length ≤ f.decls.length := List.length_filterMap_le _ _
  have hleaves : (List.flatMap Function.leaves t).length = t.leaves.length := rfl
  constructor <;> omega

end Tree

end Sizes

namespace Lexeme

lemma length_ofText_le (source : String) : (ofText source).length ≤ source.toList.length := by
  have hfrom : ∀ fuel p cs, (scanFrom fuel p cs).length ≤ fuel := by
    intro fuel
    induction fuel with
    | zero =>
      intro p cs
      exact Nat.le_refl _
    | succ fuel ih =>
      intro p cs
      unfold scanFrom
      split
      · exact Nat.zero_le _
      · exact Nat.succ_le_succ (ih _ _)
  exact hfrom _ _ _

lemma span_of_mem_ofText {source : String} {lx : Lexeme} (h : lx ∈ ofText source) :
    ∃ line col len, lx.span = Span.clamped line col len := by
  have hfrom : ∀ fuel p cs, ∀ lx ∈ scanFrom fuel p cs, ∃ line col len, lx.span = Span.clamped line col len := by
    intro fuel
    induction fuel with
    | zero =>
      intro p cs lx h
      cases h
    | succ fuel ih =>
      intro p cs lx h
      unfold scanFrom at h
      split at h
      · cases h
      · rcases List.mem_cons.1 h with rfl | h
        · exact ⟨_, _, _, rfl⟩
        · exact ih _ _ lx h
  exact hfrom _ _ _ lx h

lemma pos_of_mem_ofText {source : String} {lx : Lexeme} (h : lx ∈ ofText source) :
    lx.pos.line.toNat = lx.span.line ∧ lx.pos.col.toNat = lx.span.col := by
  obtain ⟨line, col, len, hspan⟩ := span_of_mem_ofText h
  have hline : lx.span.line ≤ Span.maxLine := by
    rw [hspan]
    exact Nat.min_le_right _ _
  have hcol : lx.span.col ≤ Span.maxCol := by
    rw [hspan]
    exact Nat.min_le_right _ _
  unfold Span.maxLine UInt32.size at hline
  unfold Span.maxCol UInt16.size at hcol
  unfold Lexeme.pos
  constructor
  · exact UInt32.toNat_ofNat_of_lt' (by rw [UInt32.size]; omega)
  · exact UInt32.toNat_ofNat_of_lt' (by rw [UInt32.size]; omega)

end Lexeme

lemma length_toList_le_utf8ByteSize (source : String) : source.toList.length ≤ source.utf8ByteSize := by
  have hencode : ∀ cs : List Char, cs.length ≤ cs.utf8Encode.size := by
    intro cs
    induction cs with
    | nil => exact Nat.le_refl _
    | cons c cs ih =>
      have hpos := c.utf8Size_pos
      have hsize : [c].utf8Encode.size = c.utf8Size := by
        rw [List.utf8Encode_singleton, List.size_toByteArray, String.length_utf8EncodeChar]
      rw [List.utf8Encode_cons, ByteArray.size_append, hsize, List.length_cons]
      omega
  have hbytes := hencode source.toList
  rw [String.utf8Encode_toList] at hbytes
  exact hbytes

lemma Lexeme.length_ofText_lt {source : String} (hsize : source.utf8ByteSize < 2 ^ 32) :
    (ofText source).length < UInt32.size := by
  have htokens := length_ofText_le source
  have hchars := length_toList_le_utf8ByteSize source
  rw [UInt32.size]
  omega

lemma Tree.fits_of_spells_ofText {source : String} {t : Tree} (h : Spells t.leaves (Lexeme.ofText source) [])
    (hsize : source.utf8ByteSize < 2 ^ 32) : t.Fits := by
  have hlength := h.length_eq
  have htokens := Lexeme.length_ofText_lt hsize
  rw [List.length_nil, Nat.add_zero] at hlength
  exact Tree.fits_of_length (by omega)

namespace Module

lemma parse_eq_ok_iff {name source : String} {m : Module} :
    Module.parse name source = .ok m ↔ ofTokens name (Lexeme.ofText source) = .ok m := by
  cases h : ofTokens name (Lexeme.ofText source) with
  | error e =>
    simp only [Module.parse, h, Except.mapError, reduceCtorEq]
  | ok m' =>
    simp only [Module.parse, h, Except.mapError, Except.ok.injEq]

/-- A text of less than 2^32 bytes is parsed exactly if its tokens are the leaves of a valid derivation.
The module is then the one that the derivation denotes. Its positions are the lines and columns of tokens, and the
doubles of its literals are the nearest ones. -/
theorem parse_eq_ok_iff_derivation (name source : String) (hsize : source.utf8ByteSize < 2 ^ 32) (m : Module) :
    (Module.parse name source = .ok m ↔
      ∃ t : Tree, Spells t.leaves (Lexeme.ofText source) [] ∧ t.Valid ∧ t.denote name = m) ∧
    (∀ lx ∈ Lexeme.ofText source, lx.pos.line.toNat = lx.span.line ∧ lx.pos.col.toNat = lx.span.col) ∧
    ∀ w : List Char, (Literal.doubleOf w).IsNearest (w.head? = some '-')
      ((Literal.decimalOf w).1 * 10 ^ (Literal.decimalOf w).2) := by
  refine ⟨?_, fun lx hlx => Lexeme.pos_of_mem_ofText hlx, Literal.isNearest_doubleOf⟩
  rw [parse_eq_ok_iff]
  constructor
  · intro h
    obtain ⟨t, ht, hnodup, hfollows⟩ := ofTokens_eq_ok_iff.1 h
    have hfits : t.Fits := Tree.fits_of_spells_ofText ht hsize
    obtain ⟨hvalid, rfl⟩ := (follows_adds_iff [] rfl hnodup hfits).1 hfollows
    exact ⟨t, ht, ⟨hnodup, hvalid⟩, denote_eq_ofFunctions t name⟩
  · rintro ⟨t, ht, hvalid, rfl⟩
    exact ofTokens_eq_denote ht hvalid (Tree.fits_of_spells_ofText ht hsize)

/-- A text whose first block jumps ahead or back to itself, and whose function calls itself by its bare name. -/
def selfCall : String :=
  "fn f(arg0) \x7b\n  start: \x7b switchInt(arg0) -> [0x1f: end, otherwise: start]; \x7d\n" ++
    "  end: \x7b return = call f(const -2.5e-1) -> end; \x7d\n\x7d"

theorem selfCall_has_derivation :
    selfCall.utf8ByteSize < 2 ^ 32 ∧ ∃ t : Tree, Spells t.leaves (Lexeme.ofText selfCall) [] ∧ t.Valid ∧
      t.denote "m" = ((Module.empty "m").declare "f" []).define ⟨0⟩ ⟨1, 0, 0, .ofList [
        ⟨[], ⟨.switch (.arg 0) [.int 31] [⟨1⟩, ⟨0⟩], ⟨2, 12⟩⟩⟩,
        ⟨[], ⟨.call .result (.func ⟨0⟩) [.const (.float ⟨0xBFD0000000000000⟩)] ⟨1⟩, ⟨3, 10⟩⟩⟩]⟩ := by
  have hsize : selfCall.utf8ByteSize < 2 ^ 32 := by decide +kernel
  refine ⟨hsize, ((parse_eq_ok_iff_derivation "m" selfCall hsize _).1).1 ?_⟩
  decide +kernel

end Module

end BlockIR
