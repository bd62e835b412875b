import BlockIR.Proofs.Grammar.Reading

/-!
# Collecting names ahead

The names of functions and the labels of blocks are collected before the code is read, by counting
braces. On the leaves of trees this finds the names of the functions, and the labels of a function.
-/

namespace BlockIR

/-- Leaves other than braces. -/
def Leaf.isFlat (l : Leaf) : Bool := l.token ≠ .mark .curlyOpen && l.token ≠ .mark .curlyClose

/-- Leaves other than braces of which the position is not fixed. -/
def Leaf.isFree (l : Leaf) : Bool := l.isFlat && l.pos.isNone

/-- Leaves that stand between functions: neither braces nor `fn`. -/
def Leaf.isOuter (l : Leaf) : Bool := l.isFlat && l.token ≠ .keyword .fn && l.pos.isNone

lemma Leaf.all_commas {p : Leaf → Bool} (hp : p (.mark .comma)) {lss : List (List Leaf)}
    (h : ∀ ls ∈ lss, ls.all p) : (Leaf.commas lss).all p := by
  induction lss with
  | nil => rfl
  | cons ls lss ih =>
    obtain ⟨hls, hlss⟩ := List.forall_mem_cons.1 h
    cases lss with
    | nil => exact hls
    | cons ls' lss =>
      show (ls ++ .mark .comma :: Leaf.commas (ls' :: lss)).all p
      rw [List.all_append, List.all_cons, hls, hp, ih hlss]
      rfl

lemma Leaf.all_isFlat {ls : List Leaf} (h : ls.all Leaf.isFree) : ls.all Leaf.isFlat := by
  rw [List.all_eq_true] at h ⊢
  exact fun l hl => (Bool.and_eq_true_iff.1 (h l hl)).1

lemma Leaf.all_placed {p : Pos} {ls : List Leaf} (h : ls.all Leaf.isFree) :
    (Leaf.placed p ls).all Leaf.isFlat := by
  have hflat := Leaf.all_isFlat h
  cases ls <;> exact hflat

lemma Place.isFree_token (p : Place) : (Leaf.of p.token).isFree := by cases p <;> rfl

namespace Tree

lemma Constant.isFree_token (c : Constant) : (Leaf.of c.token).isFree := by cases c <;> rfl

lemma Operand.all_leaves (x : Operand) : x.leaves.all Leaf.isFree := by
  cases x with
  | read p => rw [leaves, List.all_cons, p.isFree_token]; rfl
  | const c => rw [leaves, List.all_cons, List.all_cons, c.isFree_token]; rfl
  | item name => rfl

lemma Callee.all_leaves (f : Callee) : f.leaves.all Leaf.isFree := by
  cases f with
  | bare name => rfl
  | operand x => exact x.all_leaves

lemma Rvalue.all_leaves (r : Rvalue) : r.leaves.all Leaf.isFree := by
  cases r with
  | use x => exact x.all_leaves
  | binary op x y => simp only [leaves, List.all_append, x.all_leaves, y.all_leaves]; rfl
  | unary op x => simp only [leaves, List.all_append, x.all_leaves]; rfl

lemma Action.all_leaves (a : Action) : a.leaves.all Leaf.isFree := by
  cases a with
  | assign p r => simp only [leaves, List.all_append, List.all_cons, p.isFree_token, r.all_leaves]; rfl
  | drop k p => simp only [leaves, List.all_cons, p.isFree_token]; rfl

lemma Case.all_leaves (c : Case) : c.leaves.all Leaf.isFree := by
  rw [leaves, List.all_cons, c.value.isFree_token]
  rfl

lemma Ending.all_leaves (e : Ending) : e.leaves.all Leaf.isFree := by
  cases e with
  | nothing => rfl
  | last c => rw [leaves, List.all_append, c.all_leaves]; rfl
  | otherwise l => rfl

lemma Transfer.all_leaves (t : Transfer) : t.leaves.all Leaf.isFree := by
  cases t with
  | branch c t e => simp only [leaves, List.all_append, c.all_leaves]; rfl
  | switch p cases e =>
    have hcases : (cases.flatMap (·.leaves ++ [.mark .comma])).all Leaf.isFree := by
      rw [List.all_flatMap, List.all_eq_true]
      intro c _
      rw [List.all_append, c.all_leaves]
      rfl
    simp only [leaves, List.all_append, List.all_cons, p.isFree_token, hcases, e.all_leaves]
    rfl
  | call p f xs l =>
    have hxs : (Leaf.commas (xs.map Operand.leaves)).all Leaf.isFree := by
      refine Leaf.all_commas rfl fun ls hls => ?_
      obtain ⟨x, -, rfl⟩ := List.mem_map.1 hls
      exact x.all_leaves
    simp only [leaves, List.all_append, List.all_cons, p.isFree_token, f.all_leaves, hxs]
    rfl
  | _ => rfl

/-- What stands between the braces of a block. -/
def Block.lines (b : Block) : List Leaf := b.statements.flatMap Statement.leaves ++ b.terminator.leaves

lemma Block.all_lines (b : Block) : b.lines.all Leaf.isFlat := by
  have hterminator : b.terminator.leaves.all Leaf.isFlat := Leaf.all_placed b.terminator.transfer.all_leaves
  rw [lines, List.all_append, hterminator, Bool.and_true, List.all_flatMap, List.all_eq_true]
  intro t _
  exact Leaf.all_placed t.action.all_leaves

lemma Block.leaves_eq (b : Block) :
    b.leaves = [.ident b.label, .mark .colon] ++ [.mark .curlyOpen] ++ b.lines ++ [.mark .curlyClose] := by
  simp only [leaves, lines, List.append_assoc, List.cons_append, List.nil_append]

lemma Decl.all_leaves (d : Decl) : d.leaves.all Leaf.isFree := by cases d <;> rfl

lemma Attr.all_leaves (a : Attr) : a.leaves.all Leaf.isOuter := by
  have hargs : (argLeaves a.args).all Leaf.isOuter := by
    cases ha : a.args with
    | nil => rfl
    | cons arg as =>
      have hcommas : (Leaf.commas ((arg :: as).map AttrArg.leaves)).all Leaf.isOuter := by
        refine Leaf.all_commas rfl fun ls hls => ?_
        obtain ⟨x, -, rfl⟩ := List.mem_map.1 hls
        rfl
      simp only [argLeaves, List.all_append, hcommas]
      rfl
  simp only [leaves, List.all_append, hargs]
  rfl

/-- What stands between `fn` and the opening brace of a function. -/
def Function.header (f : Function) : List Leaf :=
  [.ident f.name, .mark .parenOpen] ++ Leaf.commas (f.params.map paramLeaves) ++ [.mark .parenClose]

lemma Function.all_header (f : Function) : f.header.all Leaf.isOuter := by
  have hcommas : (Leaf.commas (f.params.map paramLeaves)).all Leaf.isOuter := by
    refine Leaf.all_commas rfl fun ls hls => ?_
    obtain ⟨i, -, rfl⟩ := List.mem_map.1 hls
    rfl
  simp only [header, List.all_append, hcommas]
  rfl

lemma Function.leaves_eq (f : Function) :
    f.leaves = f.attrs.flatMap Attr.leaves ++ ([.word .fn] ++ (f.header ++ ([.mark .curlyOpen] ++
      (f.decls.flatMap Decl.leaves ++ (f.blocks.flatMap Block.leaves ++ [.mark .curlyClose]))))) := by
  simp only [leaves, bodyLeaves, header, List.append_assoc, List.cons_append, List.nil_append]

end Tree

namespace Scope

open BlockIR.Tree

variable {n : Nat} {names labels found : List String} {ls : List Leaf} {ts rest : List Lexeme}

lemma blockLabels_flat (h : ls.all Leaf.isFlat) (hs : Spells ls ts rest) :
    blockLabels (n + 1) labels ts = blockLabels (n + 1) labels rest := by
  induction ls generalizing ts with
  | nil =>
    cases hs
    rfl
  | cons l ls ih =>
    rw [List.all_cons, Bool.and_eq_true] at h
    obtain ⟨lx, ts, rfl, hl, hs⟩ := hs
    rw [← ih h.2 hs]
    have hflat := h.1
    rw [Leaf.isFlat, ← hl.1] at hflat
    rw [blockLabels]
    cases ht : lx.token with
    | mark m => cases m <;> first | rfl | (rw [ht] at hflat; cases hflat)
    | ident name => simp only [Nat.add_one_ne_zero, false_and, if_false]
    | _ => rfl

lemma functionNames_flat (h : ls.all Leaf.isFlat) (hs : Spells ls ts rest) :
    functionNames (n + 1) names ts = functionNames (n + 1) names rest := by
  induction ls generalizing ts with
  | nil =>
    cases hs
    rfl
  | cons l ls ih =>
    rw [List.all_cons, Bool.and_eq_true] at h
    obtain ⟨lx, ts, rfl, hl, hs⟩ := hs
    rw [← ih h.2 hs]
    have hflat := h.1
    rw [Leaf.isFlat, ← hl.1] at hflat
    rw [functionNames.eq_def]
    cases ht : lx.token with
    | mark m => cases m <;> first | (simp only [ht]; done) | (rw [ht] at hflat; cases hflat)
    | keyword k => cases k <;> simp only [ht]
    | _ => simp only [ht]

lemma functionNames_outer (h : ls.all Leaf.isOuter) (hs : Spells ls ts rest) :
    functionNames 0 names ts = functionNames 0 names rest := by
  induction ls generalizing ts with
  | nil =>
    cases hs
    rfl
  | cons l ls ih =>
    rw [List.all_cons, Bool.and_eq_true] at h
    obtain ⟨lx, ts, rfl, hl, hs⟩ := hs
    rw [← ih h.2 hs]
    have houter := h.1
    rw [Leaf.isOuter, Leaf.isFlat, ← hl.1] at houter
    rw [functionNames.eq_def]
    cases ht : lx.token with
    | mark m => cases m <;> first | (simp only [ht]; done) | (rw [ht] at houter; cases houter)
    | keyword k => cases k <;> first | (simp only [ht]; done) | (rw [ht] at houter; cases houter)
    | _ => simp only [ht]

lemma blockLabels_label {lx lx' : Lexeme} {label : String} (hlabel : lx.token = .ident label)
    (hcolon : lx'.token = .mark .colon) :
    blockLabels 0 labels (lx :: lx' :: ts) = .ok found ↔
      label ∉ labels ∧ blockLabels 0 (labels ++ [label]) (lx' :: ts) = .ok found := by
  rw [blockLabels]
  simp only [hlabel, List.head?_cons, Option.map_some, hcolon, and_self, if_true]
  by_cases hmem : label ∈ labels
  · simp only [hmem, if_true, not_true_eq_false, false_and, reduceCtorEq]
  · simp only [hmem, if_false, not_false_eq_true, true_and]

lemma blockLabels_close {lx : Lexeme} (h : lx.token = .mark .curlyClose) :
    blockLabels 0 labels (lx :: ts) = .ok labels := by
  simp only [blockLabels, h, if_true]

lemma functionNames_fn {lx lx' : Lexeme} {name : String} (hfn : lx.token = .keyword .fn)
    (hname : lx'.token = .ident name) :
    functionNames 0 names (lx :: lx' :: ts) = .ok found ↔
      name ∉ names ∧ functionNames 0 (names ++ [name]) (lx' :: ts) = .ok found := by
  obtain ⟨token, span⟩ := lx'
  obtain rfl : token = .ident name := hname
  rw [functionNames.eq_def]
  simp only [hfn, List.head?_cons]
  by_cases hmem : name ∈ names
  · simp only [hmem, if_true, not_true_eq_false, false_and, reduceCtorEq]
  · simp only [hmem, if_false, not_false_eq_true, true_and]

lemma exists_of_spells_block {b : Tree.Block} (hs : Spells b.leaves ts rest) :
    ∃ lx₁ lx₂ lx₃ lx₄ mid, ts = lx₁ :: lx₂ :: lx₃ :: mid ∧ lx₁.token = .ident b.label ∧
      lx₂.token = .mark .colon ∧ lx₃.token = .mark .curlyOpen ∧ lx₄.token = .mark .curlyClose ∧
      Spells b.lines mid (lx₄ :: rest) := by
  rw [b.leaves_eq] at hs
  simp only [Spells.append_iff, Spells.cons_cons_iff] at hs
  obtain ⟨m₄, ⟨m₃, ⟨m₂, ⟨m₁, hlabel, hcolon⟩, hopen⟩, hlines⟩, hclose⟩ := hs
  obtain ⟨lx₁, rfl, h₁⟩ := Spells.of_iff.1 hlabel
  obtain ⟨lx₂, rfl, h₂⟩ := Spells.of_iff.1 hcolon
  obtain ⟨lx₃, rfl, h₃⟩ := Spells.of_iff.1 hopen
  obtain ⟨lx₄, rfl, h₄⟩ := Spells.of_iff.1 hclose
  exact ⟨lx₁, lx₂, lx₃, lx₄, m₃, rfl, h₁, h₂, h₃, h₄, hlines⟩

lemma blockLabels_block {b : Tree.Block} (hs : Spells b.leaves ts rest) :
    blockLabels 0 labels ts = .ok found ↔
      b.label ∉ labels ∧ blockLabels 0 (labels ++ [b.label]) rest = .ok found := by
  obtain ⟨lx₁, lx₂, lx₃, lx₄, mid, rfl, h₁, h₂, h₃, h₄, hlines⟩ := exists_of_spells_block hs
  have hrest : ∀ labels, blockLabels 0 labels (lx₂ :: lx₃ :: mid) = blockLabels 0 labels rest := by
    intro labels
    simp only [blockLabels, h₂, h₃, blockLabels_flat b.all_lines hlines, h₄, Nat.zero_add,
      Nat.add_one_ne_zero, if_false]
  rw [blockLabels_label h₁ h₂, hrest]

lemma nodup_concat {name : String} (h : names.Nodup) (hnew : name ∉ names) : (names ++ [name]).Nodup := by
  refine List.nodup_append.2 ⟨h, List.pairwise_singleton _ _, fun a ha b hb => ?_⟩
  rintro rfl
  rw [List.mem_singleton.1 hb] at ha
  exact hnew ha

lemma not_nodup_of_mem {name : String} {l : List String} (h : name ∈ names) :
    ¬(names ++ name :: l).Nodup := by
  intro hnodup
  exact (List.nodup_append.1 hnodup).2.2 name h name List.mem_cons_self rfl

lemma idxOf_append_cons {name : String} {l : List String} (hnew : name ∉ names) :
    (names ++ name :: l).idxOf name = names.length := by
  rw [List.idxOf_append, if_neg hnew, List.idxOf_cons_self, Nat.zero_add]

/-- The labels of a function are those of its blocks, if no label is used twice. -/
lemma blockLabels_body {bs : List Tree.Block} (hnodup : labels.Nodup)
    (hs : Spells (bs.flatMap Block.leaves ++ [.mark .curlyClose]) ts rest) :
    blockLabels 0 labels ts = .ok found ↔
      (labels ++ bs.map (·.label)).Nodup ∧ labels ++ bs.map (·.label) = found := by
  induction bs generalizing ts labels with
  | nil =>
    obtain ⟨lx, rfl, ht⟩ := Spells.of_iff.1 hs
    simp only [blockLabels_close ht, List.map_nil, List.append_nil, Except.ok.injEq, hnodup, true_and]
  | cons b bs ih =>
    rw [List.flatMap_cons, List.append_assoc] at hs
    obtain ⟨mid, hb, hbs⟩ := Spells.append_iff.1 hs
    rw [blockLabels_block hb, List.map_cons]
    by_cases hmem : b.label ∈ labels
    · simp only [hmem, not_true_eq_false, false_and, not_nodup_of_mem hmem]
    · rw [ih (nodup_concat hnodup hmem) hbs, List.append_assoc, List.singleton_append]
      simp only [hmem, not_false_eq_true, true_and]

lemma functionNames_block {b : Tree.Block} (hs : Spells b.leaves ts rest) :
    functionNames (n + 1) names ts = functionNames (n + 1) names rest := by
  obtain ⟨lx₁, lx₂, lx₃, lx₄, mid, rfl, h₁, h₂, h₃, h₄, hlines⟩ := exists_of_spells_block hs
  simp only [functionNames, h₁, h₂, h₃, functionNames_flat b.all_lines hlines, h₄, Nat.add_sub_cancel]

lemma functionNames_blocks {bs : List Tree.Block} (hs : Spells (bs.flatMap Block.leaves) ts rest) :
    functionNames (n + 1) names ts = functionNames (n + 1) names rest := by
  induction bs generalizing ts with
  | nil =>
    cases hs
    rfl
  | cons b bs ih =>
    obtain ⟨mid, hb, hbs⟩ := Spells.append_iff.1 hs
    rw [functionNames_block hb, ih hbs]

lemma functionNames_function {f : Tree.Function} (hs : Spells f.leaves ts rest) :
    functionNames 0 names ts = .ok found ↔
      f.name ∉ names ∧ functionNames 0 (names ++ [f.name]) rest = .ok found := by
  have hattrs : (f.attrs.flatMap Attr.leaves).all Leaf.isOuter := by
    rw [List.all_flatMap, List.all_eq_true]
    intro a _
    exact a.all_leaves
  have hdecls : (f.decls.flatMap Decl.leaves).all Leaf.isFlat := by
    rw [List.all_flatMap, List.all_eq_true]
    intro d _
    exact Leaf.all_isFlat d.all_leaves
  rw [f.leaves_eq] at hs
  obtain ⟨m₁, h₁, hs⟩ := Spells.append_iff.1 hs
  obtain ⟨m₂, h₂, hs⟩ := Spells.append_iff.1 hs
  obtain ⟨m₃, h₃, hs⟩ := Spells.append_iff.1 hs
  obtain ⟨m₄, h₄, hs⟩ := Spells.append_iff.1 hs
  obtain ⟨m₅, h₅, hs⟩ := Spells.append_iff.1 hs
  obtain ⟨m₆, h₆, h₇⟩ := Spells.append_iff.1 hs
  obtain ⟨lx₂, rfl, ht₂⟩ := Spells.of_iff.1 h₂
  obtain ⟨lx₄, rfl, ht₄⟩ := Spells.of_iff.1 h₄
  obtain ⟨lx₇, rfl, ht₇⟩ := Spells.of_iff.1 h₇
  have hrest : ∀ names, functionNames 0 names m₂ = functionNames 0 names rest := by
    intro names
    rw [functionNames_outer f.all_header h₃]
    simp only [functionNames, ht₄, Nat.zero_add]
    rw [functionNames_flat hdecls h₅, functionNames_blocks h₆]
    simp only [functionNames, ht₇, Nat.add_sub_cancel]
  obtain ⟨lx₃, m₃', hm₂, hident, -⟩ := h₃
  rw [functionNames_outer hattrs h₁, hm₂, functionNames_fn ht₂ hident.1, ← hm₂, hrest]

/-- The names that are collected are those of the functions, if no name is used twice. -/
lemma functionNames_tree {t : Tree} (hnodup : names.Nodup) (hs : Spells t.leaves ts []) :
    functionNames 0 names ts = .ok found ↔
      (names ++ Tree.names t).Nodup ∧ names ++ Tree.names t = found := by
  induction t generalizing ts names with
  | nil =>
    cases hs
    simp only [functionNames, Tree.names, List.map_nil, List.append_nil, Except.ok.injEq, hnodup, true_and]
  | cons f t ih =>
    obtain ⟨mid, hf, ht⟩ := Spells.append_iff.1 hs
    have hcons : Tree.names (f :: t) = f.name :: Tree.names t := rfl
    rw [functionNames_function hf, hcons]
    by_cases hmem : f.name ∈ names
    · simp only [hmem, not_true_eq_false, false_and, not_nodup_of_mem hmem]
    · rw [ih (nodup_concat hnodup hmem) ht, List.append_assoc, List.singleton_append]
      simp only [hmem, not_false_eq_true, true_and]

end Scope

end BlockIR
