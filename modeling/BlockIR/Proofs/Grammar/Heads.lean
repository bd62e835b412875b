import BlockIR.Proofs.Grammar.Reading

/-!
# Reading heads of functions accepts their grammar

Attributes, parameters and declarations. Attributes and declarations go on for as long as their first
token comes next.
-/

namespace BlockIR

/-- A declaration is of the next variable or temporary of a draft. -/
def Draft.Declares (d : Draft) : Tree.Decl → Draft → Prop
  | .var i, d' => i = d.vars ∧ d.declareVar.2 = d'
  | .temp i, d' => i = d.temps ∧ d.declareTemp.2 = d'

lemma Tree.Attr.argLeaves_of_ne_nil {l : List Tree.AttrArg} (h : l ≠ []) :
    Tree.Attr.argLeaves l =
      [.mark .parenOpen] ++ (Leaf.commas (l.map Tree.AttrArg.leaves) ++ [.mark .parenClose]) := by
  cases l with
  | nil => exact absurd rfl h
  | cons a l => exact List.append_assoc _ _ _

namespace Parser

variable {ts rest : List Lexeme}

lemma decl_eq_ok_iff {d : Draft} {r : Draft ⊕ Draft} :
    decl d ts = .ok (r, rest) ↔
      (∃ (t : Tree.Decl) (d' : Draft), Spells t.leaves ts rest ∧ d.Declares t d' ∧ .inl d' = r) ∨
      (ts.head?.map (·.token) ≠ some (.keyword .let_) ∧ ts = rest ∧ .inr d = r) := by
  unfold decl
  rw [nextIs_bind]
  constructor
  · intro h
    by_cases hlet : ts.head?.map (·.token) = some (.keyword .let_)
    · simp only [hlet, decide_true, if_true] at h
      rcases ts with _ | ⟨lx, _ | ⟨lx', ts⟩⟩
      · cases hlet
      · cases h
      · rw [skip_bind_cons, next_bind_cons] at h
        have hword : Spells [.word .let_] (lx :: lx' :: ts) (lx' :: ts) :=
          Spells.of_iff.2 ⟨lx, rfl, Option.some.inj hlet⟩
        have hlocal : ∀ t, lx'.token = t → Spells [.of t] (lx' :: ts) ts :=
          fun t ht => Spells.of_iff.2 ⟨lx', rfl, ht⟩
        cases ht : lx'.token with
        | var i =>
          simp only [ht] at h
          split_ifs at h with hi
          · simp only [pure_bind, expectMark_bind_eq_ok_iff, pure_eq_ok_iff] at h
            obtain ⟨mid, hsemi, rfl, rfl⟩ := h
            exact .inl ⟨.var i, _, (hword.append (hlocal _ ht)).append hsemi, ⟨hi, rfl⟩, rfl⟩
          · cases h
        | temp i =>
          simp only [ht] at h
          split_ifs at h with hi
          · simp only [pure_bind, expectMark_bind_eq_ok_iff, pure_eq_ok_iff] at h
            obtain ⟨mid, hsemi, rfl, rfl⟩ := h
            exact .inl ⟨.temp i, _, (hword.append (hlocal _ ht)).append hsemi, ⟨hi, rfl⟩, rfl⟩
          · cases h
        | _ =>
          simp only [ht] at h
          cases h
    · simp only [hlet, decide_false, Bool.false_eq_true, if_false, pure_eq_ok_iff] at h
      exact .inr ⟨hlet, h.2, h.1⟩
  · rintro (⟨t, d', h, hd, rfl⟩ | ⟨hlet, rfl, rfl⟩)
    · simp only [Tree.Decl.leaves, Spells.cons_cons_iff] at h
      obtain ⟨m₁, hword, m₂, hlocal, hsemi⟩ := h
      obtain ⟨lx, rfl, hlet⟩ := Spells.of_iff.1 hword
      obtain ⟨lx', rfl, ht⟩ := Spells.of_iff.1 hlocal
      simp only [List.head?_cons, Option.map_some, hlet, decide_true, if_true, skip_bind_cons,
        next_bind_cons]
      cases t with
      | var i =>
        obtain ⟨rfl, rfl⟩ := hd
        simp only [ht, Tree.Decl.token, if_true, pure_bind, expectMark_bind_eq_ok_iff]
        exact ⟨rest, hsemi, rfl⟩
      | temp i =>
        obtain ⟨rfl, rfl⟩ := hd
        simp only [ht, Tree.Decl.token, if_true, pure_bind, expectMark_bind_eq_ok_iff]
        exact ⟨rest, hsemi, rfl⟩
    · simp only [hlet, decide_false, Bool.false_eq_true, if_false]
      rfl

lemma decls_eq_ok_iff {d d' : Draft} :
    loop decl d ts = .ok (d', rest) ↔ ∃ l : List Tree.Decl, Spells (l.flatMap Tree.Decl.leaves) ts rest ∧
      Follows Draft.Declares d l d' ∧ rest.head?.map (·.token) ≠ some (.keyword .let_) :=
  loop_eq_ok_iff_of_stops Tree.Decl.leaves (fun ts => ts.head?.map (·.token) ≠ some (.keyword .let_))
    (fun _ => List.cons_ne_nil _ _) (fun _ _ _ _ => decl_eq_ok_iff)

lemma attrArg_reads {args : Array (String × String)} :
    (attrArg args).Reads Tree.AttrArg.leaves
      (fun t args' => t.Valid ∧ args.push t.denote = args') := by
  intro ts args' rest
  unfold attrArg
  simp only [bind_eq_ok_iff (p := ident _), Prod.exists, ident_eq_ok_iff, expectMark_bind_eq_ok_iff]
  constructor
  · rintro ⟨key, lx, m₁, ⟨rfl, hkey⟩, m₂, heq, h⟩
    cases m₂ with
    | nil => cases h
    | cons lx' m₂ =>
      rw [next_bind_cons] at h
      cases ht : lx'.token with
      | str spelling =>
        simp only [ht] at h
        cases hvalue : Literal.str? spelling.toList with
        | none =>
          simp only [hvalue] at h
          cases h
        | some value =>
          simp only [hvalue, pure_eq_ok_iff] at h
          obtain ⟨rfl, rfl⟩ := h
          have hident : Spells [.ident key] (lx :: m₁) m₁ := Spells.of_iff.2 ⟨lx, rfl, hkey⟩
          have hstr : Spells [.of (.str spelling)] (lx' :: m₂) m₂ := Spells.of_iff.2 ⟨lx', rfl, ht⟩
          obtain ⟨hvalid, rfl⟩ := Literal.str?_eq_some_iff.1 hvalue
          exact ⟨⟨key, spelling⟩, (hident.append heq).append hstr, hvalid, rfl⟩
      | _ =>
        simp only [ht] at h
        cases h
  · rintro ⟨⟨key, spelling⟩, h, hvalid, rfl⟩
    simp only [Tree.AttrArg.leaves, Spells.cons_cons_iff] at h
    obtain ⟨m₁, hident, m₂, heq, hstr⟩ := h
    obtain ⟨lx, rfl, hkey⟩ := Spells.of_iff.1 hident
    obtain ⟨lx', rfl, ht⟩ := Spells.of_iff.1 hstr
    refine ⟨key, lx, m₁, ⟨rfl, hkey⟩, lx' :: rest, heq, ?_⟩
    simp only [next_bind_cons, ht, Literal.str?_eq_some_iff.2 ⟨hvalid, rfl⟩]
    rfl

lemma attrArgs_eq_ok_iff {args : Array (String × String)} :
    commaItems attrArg #[] ts = .ok (args, rest) ↔ ∃ l : List Tree.AttrArg, l ≠ [] ∧
      Spells (Leaf.commas (l.map Tree.AttrArg.leaves) ++ [.mark .parenClose]) ts rest ∧
      (∀ t ∈ l, t.Valid) ∧ l.map (·.denote) = args.toList := by
  rw [commaItems_eq_ok_iff (fun _ => attrArg_reads)]
  simp only [follows_push_iff]

lemma attr_reads : attr.Reads Tree.Attr.leaves (fun t x => t.Valid ∧ t.denote = x) := by
  intro ts x rest
  unfold attr
  simp only [expectMark_bind_eq_ok_iff, bind_eq_ok_iff (p := ident _), Prod.exists, ident_eq_ok_iff,
    nextIs_bind, pure_bind]
  constructor
  · rintro ⟨m₁, h₁, m₂, h₂, name, lx, m₃, ⟨rfl, hname⟩, h⟩
    have hident : Spells [.ident name] (lx :: m₃) m₃ := Spells.of_iff.2 ⟨lx, rfl, hname⟩
    by_cases hopen : m₃.head?.map (·.token) = some (.mark .parenOpen)
    · simp only [hopen, decide_true, if_true] at h
      cases m₃ with
      | nil => cases hopen
      | cons lx' m₃ =>
        simp only [skip_bind_cons, bind_eq_ok_iff (p := commaItems _ _), attrArgs_eq_ok_iff,
          expectMark_bind_eq_ok_iff, pure_eq_ok_iff] at h
        obtain ⟨args, m₄, ⟨l, hl, h₄, hvalid, hxs⟩, m₅, h₅, rfl, rfl⟩ := h
        have hmark : Spells [.mark .parenOpen] (lx' :: m₃) m₃ :=
          Spells.of_iff.2 ⟨lx', rfl, Option.some.inj hopen⟩
        refine ⟨⟨name, l⟩, ?_, hvalid, ?_⟩
        · rw [Tree.Attr.leaves, Tree.Attr.argLeaves_of_ne_nil hl]
          exact (((h₁.append h₂).append hident).append (hmark.append h₄)).append h₅
        · rw [Tree.Attr.denote, hxs]
    · simp only [hopen, decide_false, Bool.false_eq_true, if_false, expectMark_bind_eq_ok_iff,
        pure_eq_ok_iff] at h
      obtain ⟨m₄, h₄, rfl, rfl⟩ := h
      exact ⟨⟨name, []⟩, ((h₁.append h₂).append hident).append h₄, List.forall_mem_nil _, rfl⟩
  · rintro ⟨⟨name, l⟩, h, hvalid, rfl⟩
    simp only [Tree.Attr.leaves, Spells.append_iff (l := [.mark .squareClose]),
      Spells.append_iff (l := Tree.Attr.argLeaves l), Spells.cons_cons_iff] at h
    obtain ⟨m₄, ⟨m₃, ⟨m₁, h₁, m₂, h₂, hident⟩, hl⟩, h₅⟩ := h
    obtain ⟨lx, rfl, hname⟩ := Spells.of_iff.1 hident
    refine ⟨m₁, h₁, lx :: m₃, h₂, name, lx, m₃, ⟨rfl, hname⟩, ?_⟩
    by_cases hnil : l = []
    · subst hnil
      cases hl
      obtain ⟨lx', rfl, hclose⟩ := Spells.of_iff.1 h₅
      simp only [List.head?_cons, Option.map_some, hclose, Option.some.injEq, Token.mark.injEq,
        reduceCtorEq, decide_false, Bool.false_eq_true, if_false, expectMark_bind_eq_ok_iff]
      exact ⟨rest, h₅, rfl⟩
    · rw [Tree.Attr.argLeaves_of_ne_nil hnil] at hl
      obtain ⟨m, hopen, hargs⟩ := Spells.append_iff.1 hl
      obtain ⟨lx', rfl, htoken⟩ := Spells.of_iff.1 hopen
      simp only [List.head?_cons, Option.map_some, htoken, decide_true, if_true, skip_bind_cons,
        bind_eq_ok_iff (p := commaItems _ _), attrArgs_eq_ok_iff, expectMark_bind_eq_ok_iff, pure_eq_ok_iff]
      exact ⟨(l.map (·.denote)).toArray, m₄, ⟨l, hnil, hargs, hvalid, rfl⟩, rest, h₅,
        rfl, rfl⟩

lemma attrs_eq_ok_iff {as : Array Attribute} :
    loop attrs #[] ts = .ok (as, rest) ↔ ∃ l : List Tree.Attr, Spells (l.flatMap Tree.Attr.leaves) ts rest ∧
      ((∀ t ∈ l, t.Valid) ∧ l.map (·.denote) = as.toList) ∧
      rest.head?.map (·.token) ≠ some (.mark .hash) := by
  have hround : ∀ (as : Array Attribute) ts r rest, attrs as ts = .ok (r, rest) ↔
      (∃ t as', Spells (Tree.Attr.leaves t) ts rest ∧ (t.Valid ∧ as.push t.denote = as') ∧ .inl as' = r) ∨
      (ts.head?.map (·.token) ≠ some (.mark .hash) ∧ ts = rest ∧ .inr as = r) := by
    intro as ts r rest
    unfold attrs
    rw [nextIs_bind]
    by_cases hhash : ts.head?.map (·.token) = some (.mark .hash)
    · simp only [hhash, decide_true, if_true, attr_reads.bind_eq_ok_iff, pure_eq_ok_iff, ne_eq,
        not_true_eq_false, false_and, or_false]
      constructor
      · rintro ⟨t, _, mid, ht, ⟨hvalid, rfl⟩, rfl, rfl⟩
        exact ⟨t, _, ht, ⟨hvalid, rfl⟩, rfl⟩
      · rintro ⟨t, _, ht, ⟨hvalid, rfl⟩, rfl⟩
        exact ⟨t, _, rest, ht, ⟨hvalid, rfl⟩, rfl, rfl⟩
    · simp only [hhash, decide_false, Bool.false_eq_true, if_false, pure_eq_ok_iff]
      constructor
      · rintro ⟨rfl, rfl⟩
        exact .inr ⟨hhash, rfl, rfl⟩
      · rintro (⟨t, _, ⟨lx, ts', rfl, hl, -⟩, -⟩ | ⟨-, rfl, rfl⟩)
        · exact absurd (congrArg some hl.1) hhash
        · exact ⟨rfl, rfl⟩
  rw [loop_eq_ok_iff_of_stops Tree.Attr.leaves
    (fun ts => ts.head?.map (·.token) ≠ some (.mark .hash)) (fun _ => List.cons_ne_nil _ _) hround]
  simp only [follows_push_iff]

lemma param_reads {n : Nat} :
    (param n).Reads Tree.paramLeaves (fun i n' => i.toNat = n ∧ n + 1 = n') := by
  intro ts n' rest
  simp only [Tree.paramLeaves, Spells.of_iff]
  unfold param
  cases ts with
  | nil =>
    constructor
    · intro h
      cases h
    · rintro ⟨i, ⟨lx, h, -⟩, -⟩
      cases h
  | cons lx ts =>
    rw [next_bind_cons]
    constructor
    · intro h
      cases ht : lx.token with
      | arg i =>
        simp only [ht] at h
        split_ifs at h with hi
        · obtain ⟨rfl, rfl⟩ := pure_eq_ok_iff.1 h
          exact ⟨i, ⟨lx, rfl, ht⟩, hi, rfl⟩
        · cases h
      | _ =>
        simp only [ht] at h
        cases h
    · rintro ⟨i, ⟨lx', h, ht⟩, rfl, rfl⟩
      cases h
      simp only [ht, if_true]
      rfl

lemma follows_param_iff {l : List UInt32} {n n' : Nat} :
    Follows (fun n (i : UInt32) n' => i.toNat = n ∧ n + 1 = n') n l n' ↔
      l.map UInt32.toNat = List.range' n l.length ∧ n + l.length = n' := by
  induction l generalizing n with
  | nil =>
    constructor
    · rintro rfl
      exact ⟨rfl, rfl⟩
    · rintro ⟨-, rfl⟩
      rfl
  | cons i l ih =>
    rw [List.map_cons, List.length_cons, List.range'_succ, List.cons.injEq]
    constructor
    · rintro ⟨_, ⟨rfl, rfl⟩, h⟩
      obtain ⟨hl, rfl⟩ := ih.1 h
      exact ⟨⟨rfl, hl⟩, by omega⟩
    · rintro ⟨⟨rfl, hl⟩, rfl⟩
      exact ⟨_, ⟨rfl, rfl⟩, ih.2 ⟨hl, by omega⟩⟩

lemma params_eq_ok_iff {n : Nat} :
    params ts = .ok (n, rest) ↔ ∃ l : List UInt32,
      Spells ([.mark .parenOpen] ++ Leaf.commas (l.map Tree.paramLeaves) ++ [.mark .parenClose]) ts rest ∧
      Tree.InOrder l ∧ l.length = n := by
  have hhead : ∀ i, ∃ l ls, Tree.paramLeaves i = l :: ls ∧ l.token ≠ .mark .parenClose := by
    intro i
    refine ⟨_, _, rfl, fun h => ?_⟩
    cases h
  unfold params
  simp only [expectMark_bind_eq_ok_iff, parenthesized_eq_ok_iff (fun _ => param_reads) hhead,
    follows_param_iff, Tree.InOrder, List.range_eq_range', Nat.zero_add, List.append_assoc]
  constructor
  · rintro ⟨mid, hopen, l, h, hl⟩
    exact ⟨l, hopen.append h, hl⟩
  · rintro ⟨l, h, hl⟩
    obtain ⟨mid, hopen, h⟩ := Spells.append_iff.1 h
    exact ⟨mid, hopen, l, h, hl⟩

end Parser

end BlockIR
