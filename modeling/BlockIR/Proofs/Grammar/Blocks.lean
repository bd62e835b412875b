import BlockIR.Proofs.Draft
import BlockIR.Proofs.Grammar.Code

/-!
# Reading blocks accepts their grammar

A line of a block is a statement or a terminator, and carries the position of its first token. Blocks are
read into a draft, whose misuses are the only other way in which reading them fails.
-/

namespace BlockIR

lemma Tree.Action.exists_leaves_eq (a : Tree.Action) : ∃ t ls, a.leaves = .of t :: ls := by
  cases a <;> exact ⟨_, _, rfl⟩

lemma Tree.Transfer.exists_leaves_eq (t : Tree.Transfer) : ∃ u ls, t.leaves = .of u :: ls := by
  cases t <;> exact ⟨_, _, rfl⟩

namespace Parser

variable {s : Scope} {ts rest : List Lexeme} {lx : Lexeme}

/-- A line is a valid statement or a valid terminator. -/
def LineOf (s : Scope) (ts rest : List Lexeme) (r : Action ⊕ Transfer) : Prop :=
  (∃ a : Tree.Action, Spells a.leaves ts rest ∧ a.Valid s ∧ .inl (a.denote s) = r) ∨
    ∃ t : Tree.Transfer, Spells t.leaves ts rest ∧ t.Valid s ∧ .inr (t.denote s) = r

lemma lineOf_of_assignment {p : Place} {r : Action ⊕ Transfer} (hp : lx.token = p.token)
    (h : assignment s p ts = .ok (r, rest)) : LineOf s (lx :: ts) rest r := by
  have hplace : Spells [.of p.token] (lx :: ts) ts := Spells.of_iff.2 ⟨lx, rfl, hp⟩
  rcases assignment_eq_ok_iff.1 h with ⟨t, ht, hvalid, rfl⟩ | ⟨f, xs, l, hcall, hvalid, rfl⟩
  · exact .inl ⟨.assign p t, hplace.append ht, hvalid, rfl⟩
  · refine .inr ⟨.call p f xs l, ?_, hvalid, rfl⟩
    replace hcall := hplace.append hcall
    simp only [Tree.Transfer.leaves, List.append_assoc, List.cons_append, List.nil_append] at hcall ⊢
    exact hcall

lemma lineOf_of_place {r : Action ⊕ Transfer} (h : (place >>= assignment s) (lx :: ts) = .ok (r, rest)) :
    LineOf s (lx :: ts) rest r := by
  obtain ⟨q, _, mid, hq, rfl, h⟩ := place_reads.bind_eq_ok_iff.1 h
  obtain ⟨lx', hlx, htoken⟩ := Spells.of_iff.1 hq
  cases hlx
  exact lineOf_of_assignment htoken h

lemma lineOf_of_keyword {k : Keyword} {r : Action ⊕ Transfer} (ht : lx.token = .keyword k)
    (h : action s lx (lx :: ts) = .ok (r, rest)) : LineOf s (lx :: ts) rest r := by
  unfold action at h
  have hfront : Spells [.of (.keyword k)] (lx :: ts) ts := Spells.of_iff.2 ⟨lx, rfl, ht⟩
  cases k with
  | drop =>
    simp only [ht, bind_eq_ok_iff, drop_eq_ok_iff, pure_eq_ok_iff] at h
    obtain ⟨_, _, ⟨p, h, rfl⟩, rfl, rfl⟩ := h
    exact .inl ⟨.drop .free p, hfront.append h, trivial, rfl⟩
  | dropDeep =>
    simp only [ht, bind_eq_ok_iff, drop_eq_ok_iff, pure_eq_ok_iff] at h
    obtain ⟨_, _, ⟨p, h, rfl⟩, rfl, rfl⟩ := h
    exact .inl ⟨.drop .deep p, hfront.append h, trivial, rfl⟩
  | ret =>
    simp only [ht, skip_bind_cons, nextIs_bind] at h
    by_cases hsemi : ts.head?.map (·.token) = some (.mark .semi)
    · simp only [hsemi, decide_true, if_true] at h
      cases ts with
      | nil => cases hsemi
      | cons lx' ts =>
        simp only [skip_bind_cons, pure_eq_ok_iff] at h
        obtain ⟨rfl, rfl⟩ := h
        have hmark : Spells [.mark .semi] (lx' :: ts) ts :=
          Spells.of_iff.2 ⟨lx', rfl, Option.some.inj hsemi⟩
        exact .inr ⟨.ret, hfront.append hmark, trivial, rfl⟩
    · simp only [hsemi, decide_false, Bool.false_eq_true, if_false] at h
      exact lineOf_of_assignment (p := .result) ht h
  | goto =>
    simp only [ht, bind_eq_ok_iff, jump_eq_ok_iff, pure_eq_ok_iff] at h
    obtain ⟨_, _, ⟨l, h, hl, rfl⟩, rfl, rfl⟩ := h
    exact .inr ⟨.goto l, hfront.append h, hl, rfl⟩
  | if_ =>
    simp only [ht, bind_eq_ok_iff, branch_eq_ok_iff, pure_eq_ok_iff] at h
    obtain ⟨_, _, ⟨c, t, e, h, hvalid, rfl⟩, rfl, rfl⟩ := h
    exact .inr ⟨.branch c t e, hfront.append h, hvalid, rfl⟩
  | switchInt =>
    simp only [ht, bind_eq_ok_iff, switch_eq_ok_iff, pure_eq_ok_iff] at h
    obtain ⟨_, _, ⟨p, cases, e, h, hvalid, rfl⟩, rfl, rfl⟩ := h
    exact .inr ⟨.switch p cases e, hfront.append h, hvalid, rfl⟩
  | diverge =>
    simp only [ht, skip_bind_cons, endOfTerminator, expectMark_bind_eq_ok_iff, pure_eq_ok_iff] at h
    obtain ⟨mid, h, rfl, rfl⟩ := h
    exact .inr ⟨.diverge, hfront.append h, trivial, rfl⟩
  | panic =>
    simp only [ht, bind_eq_ok_iff, jump_eq_ok_iff, pure_eq_ok_iff] at h
    obtain ⟨_, _, ⟨l, h, hl, rfl⟩, rfl, rfl⟩ := h
    exact .inr ⟨.panic l, hfront.append h, hl, rfl⟩
  | _ =>
    simp only [ht] at h
    cases h

lemma lineOf_of_action {r : Action ⊕ Transfer} (h : action s lx (lx :: ts) = .ok (r, rest)) :
    LineOf s (lx :: ts) rest r := by
  cases ht : lx.token with
  | keyword k => exact lineOf_of_keyword ht h
  | arg i =>
    simp only [action, ht] at h
    exact lineOf_of_place h
  | var i =>
    simp only [action, ht] at h
    exact lineOf_of_place h
  | temp i =>
    simp only [action, ht] at h
    exact lineOf_of_place h
  | _ =>
    simp only [action, ht] at h
    cases h

lemma action_of_assignment {p : Place} {ls : List Leaf} {r : Action ⊕ Transfer} (hp : lx.token = p.token)
    (hls : Spells (.mark .eq :: ls) ts rest) (h : assignment s p ts = .ok (r, rest)) :
    action s lx (lx :: ts) = .ok (r, rest) := by
  have hplace : (place >>= assignment s) (lx :: ts) = .ok (r, rest) :=
    place_reads.bind_eq_ok_iff.2 ⟨p, p, ts, Spells.of_iff.2 ⟨lx, rfl, hp⟩, rfl, h⟩
  have heq : ts.head?.map (·.token) = some (.mark .eq) := by
    obtain ⟨lx', ts', rfl, hl, -⟩ := hls
    exact congrArg some hl.1
  unfold action
  cases p with
  | result =>
    simp only [hp, Place.token, skip_bind_cons, nextIs_bind, heq]
    exact h
  | arg i =>
    simp only [hp, Place.token]
    exact hplace
  | var i =>
    simp only [hp, Place.token]
    exact hplace
  | temp i =>
    simp only [hp, Place.token]
    exact hplace

lemma action_of_spells_action {a : Tree.Action} (ha : Spells a.leaves (lx :: ts) rest) (hvalid : a.Valid s) :
    action s lx (lx :: ts) = .ok (.inl (a.denote s), rest) := by
  cases a with
  | assign p t =>
    obtain ⟨hp, h⟩ := Spells.of_cons_cons_iff.1 ha
    exact action_of_assignment hp h (assignment_eq_ok_iff.2 (.inl ⟨t, h, hvalid, rfl⟩))
  | drop k p =>
    obtain ⟨hword, h⟩ := Spells.of_cons_cons_iff.1 ha
    unfold action
    cases k with
    | free =>
      simp only [hword, Tree.dropWord, bind_eq_ok_iff, drop_eq_ok_iff]
      exact ⟨_, rest, ⟨p, h, rfl⟩, rfl⟩
    | deep =>
      simp only [hword, Tree.dropWord, bind_eq_ok_iff, drop_eq_ok_iff]
      exact ⟨_, rest, ⟨p, h, rfl⟩, rfl⟩

lemma action_of_spells_transfer {t : Tree.Transfer} (ht : Spells t.leaves (lx :: ts) rest)
    (hvalid : t.Valid s) : action s lx (lx :: ts) = .ok (.inr (t.denote s), rest) := by
  cases t with
  | ret =>
    obtain ⟨hword, h⟩ := Spells.of_cons_cons_iff.1 ht
    obtain ⟨lx', rfl, hsemi⟩ := Spells.of_iff.1 h
    unfold action
    simp only [hword, skip_bind_cons, nextIs_bind, List.head?_cons, Option.map_some, hsemi,
      decide_true, if_true]
    rfl
  | goto l =>
    obtain ⟨hword, h⟩ := Spells.of_cons_cons_iff.1 ht
    unfold action
    simp only [hword, bind_eq_ok_iff, jump_eq_ok_iff]
    exact ⟨_, rest, ⟨l, h, hvalid, rfl⟩, rfl⟩
  | branch c t e =>
    obtain ⟨hword, h⟩ := Spells.of_cons_cons_iff.1 ht
    unfold action
    simp only [hword, bind_eq_ok_iff, branch_eq_ok_iff]
    exact ⟨_, rest, ⟨c, t, e, h, hvalid, rfl⟩, rfl⟩
  | switch p cases e =>
    obtain ⟨hword, h⟩ := Spells.of_cons_cons_iff.1 ht
    unfold action
    simp only [hword, bind_eq_ok_iff, switch_eq_ok_iff]
    exact ⟨_, rest, ⟨p, cases, e, h, hvalid, rfl⟩, rfl⟩
  | call p f xs l =>
    simp only [Tree.Transfer.leaves, List.append_assoc, List.cons_append, List.nil_append] at ht
    obtain ⟨hp, h⟩ := Spells.of_cons_cons_iff.1 ht
    refine action_of_assignment hp h (assignment_eq_ok_iff.2 (.inr ⟨f, xs, l, ?_, hvalid, rfl⟩))
    simp only [List.append_assoc, List.cons_append, List.nil_append]
    exact h
  | diverge =>
    obtain ⟨hword, h⟩ := Spells.of_cons_cons_iff.1 ht
    unfold action
    simp only [hword, skip_bind_cons, endOfTerminator, expectMark_bind_eq_ok_iff]
    exact ⟨rest, h, rfl⟩
  | panic l =>
    obtain ⟨hword, h⟩ := Spells.of_cons_cons_iff.1 ht
    unfold action
    simp only [hword, bind_eq_ok_iff, jump_eq_ok_iff]
    exact ⟨_, rest, ⟨l, h, hvalid, rfl⟩, rfl⟩

lemma action_eq_ok_iff {r : Action ⊕ Transfer} :
    action s lx (lx :: ts) = .ok (r, rest) ↔ LineOf s (lx :: ts) rest r := by
  constructor
  · exact lineOf_of_action
  · rintro (⟨a, ha, hvalid, rfl⟩ | ⟨t, ht, hvalid, rfl⟩)
    · exact action_of_spells_action ha hvalid
    · exact action_of_spells_transfer ht hvalid

lemma line_eq_ok_iff {d : Draft} {r : Draft ⊕ Draft} :
    line s d ts = .ok (r, rest) ↔
      (∃ (t : Tree.Statement) (d' : Draft), Spells t.leaves ts rest ∧ t.Valid s ∧
        d.append (t.denote s) = .ok d' ∧ .inl d' = r) ∨
      ∃ (t : Tree.Terminator) (d' : Draft), Spells t.leaves ts rest ∧ t.Valid s ∧
        d.terminate (t.denote s) = .ok d' ∧ .inr d' = r := by
  unfold line
  constructor
  · intro h
    cases ts with
    | nil => cases h
    | cons lx ts =>
      rw [peek_bind_cons] at h
      obtain ⟨x, mid, hx, h⟩ := bind_eq_ok_iff.1 h
      rcases action_eq_ok_iff.1 hx with ⟨a, ha, hvalid, rfl⟩ | ⟨t, ht, hvalid, rfl⟩
      · simp only [bind_eq_ok_iff, drafted_eq_ok_iff, pure_eq_ok_iff] at h
        obtain ⟨d', _, ⟨hd, rfl⟩, rfl, rfl⟩ := h
        exact .inl ⟨⟨a, lx.pos⟩, d', (Spells.placed_iff a.exists_leaves_eq).2 ⟨ha, lx, ts, rfl, rfl⟩,
          hvalid, hd, rfl⟩
      · simp only [bind_eq_ok_iff, drafted_eq_ok_iff, pure_eq_ok_iff] at h
        obtain ⟨d', _, ⟨hd, rfl⟩, rfl, rfl⟩ := h
        exact .inr ⟨⟨t, lx.pos⟩, d', (Spells.placed_iff t.exists_leaves_eq).2 ⟨ht, lx, ts, rfl, rfl⟩,
          hvalid, hd, rfl⟩
  · rintro (⟨⟨a, pos⟩, d', h, hvalid, hd, rfl⟩ | ⟨⟨t, pos⟩, d', h, hvalid, hd, rfl⟩)
    · obtain ⟨ha, lx, ts, rfl, rfl⟩ := (Spells.placed_iff a.exists_leaves_eq).1 h
      rw [peek_bind_cons, bind_eq_ok_iff]
      refine ⟨_, rest, action_eq_ok_iff.2 (.inl ⟨a, ha, hvalid, rfl⟩), ?_⟩
      simp only [bind_eq_ok_iff, drafted_eq_ok_iff, pure_eq_ok_iff]
      exact ⟨d', rest, ⟨hd, rfl⟩, rfl, rfl⟩
    · obtain ⟨ht, lx, ts, rfl, rfl⟩ := (Spells.placed_iff t.exists_leaves_eq).1 h
      rw [peek_bind_cons, bind_eq_ok_iff]
      refine ⟨_, rest, action_eq_ok_iff.2 (.inr ⟨t, ht, hvalid, rfl⟩), ?_⟩
      simp only [bind_eq_ok_iff, drafted_eq_ok_iff, pure_eq_ok_iff]
      exact ⟨d', rest, ⟨hd, rfl⟩, rfl, rfl⟩

lemma lines_eq_ok_iff {d d' : Draft} :
    loop (line s) d ts = .ok (d', rest) ↔ ∃ (l : List Tree.Statement) (t : Tree.Terminator),
      Spells (l.flatMap Tree.Statement.leaves ++ t.leaves) ts rest ∧
      ((∀ u ∈ l, u.Valid s) ∧ t.Valid s) ∧
      ((l.map (·.denote s)).foldlM Draft.append d >>= (Draft.terminate · (t.denote s))) = .ok d' := by
  have hne : ∀ t : Tree.Statement, t.leaves ≠ [] := by
    intro t
    obtain ⟨u, ls, h⟩ := t.action.exists_leaves_eq
    rw [Tree.Statement.leaves, h]
    exact List.cons_ne_nil _ _
  have hround : ∀ (d : Draft) ts d' rest, line s d ts = .ok (.inl d', rest) ↔
      ∃ t : Tree.Statement, Spells t.leaves ts rest ∧ (t.Valid s ∧ d.append (t.denote s) = .ok d') := by
    intro d ts d' rest
    rw [line_eq_ok_iff]
    constructor
    · rintro (⟨t, d₁, h, hvalid, hd, he⟩ | ⟨t, d₁, h, hvalid, hd, he⟩) <;> cases he
      exact ⟨t, h, hvalid, hd⟩
    · rintro ⟨t, h, hvalid, hd⟩
      exact .inl ⟨t, d', h, hvalid, hd, rfl⟩
  rw [loop_eq_ok_iff hne hround]
  simp only [follows_iff_foldlM, line_eq_ok_iff, List.foldlM_map]
  constructor
  · rintro ⟨l, d₁, mid, hl, ⟨hvalid, hd₁⟩, ⟨t, d₂, -, -, -, he⟩ | ⟨t, d₂, ht, hvt, hd₂, he⟩⟩ <;> cases he
    refine ⟨l, t, hl.append ht, ⟨hvalid, hvt⟩, ?_⟩
    rw [hd₁]
    exact hd₂
  · rintro ⟨l, t, h, ⟨hvalid, hvt⟩, hd⟩
    obtain ⟨mid, hl, ht⟩ := Spells.append_iff.1 h
    cases hd₁ : l.foldlM (fun d t => d.append (t.denote s)) d with
    | error e =>
      rw [hd₁] at hd
      cases hd
    | ok d₁ =>
      rw [hd₁] at hd
      exact ⟨l, d₁, mid, hl, ⟨hvalid, hd₁⟩, .inr ⟨t, d', ht, hvt, hd, rfl⟩⟩

lemma block_reads {d : Draft} :
    (block s d).Reads Tree.Block.leaves (fun b d' => (b.Valid s ∧ b.label ∈ s.labels) ∧
      d.fill (s.block b.label) (b.denote s) = .ok d') := by
  intro ts d' rest
  unfold block
  rw [bind_eq_ok_iff]
  constructor
  · rintro ⟨⟨label, lx⟩, m₁, hident, h⟩
    obtain ⟨rfl, ht⟩ := ident_eq_ok_iff.1 hident
    cases hb : s.block? label with
    | none =>
      simp only [hb] at h
      cases h
    | some id =>
      simp only [hb, expectMark_bind_eq_ok_iff, bind_eq_ok_iff (p := drafted lx _), drafted_eq_ok_iff,
        bind_eq_ok_iff (p := loop (line s) _), lines_eq_ok_iff, pure_eq_ok_iff] at h
      obtain ⟨m₂, h₂, m₃, h₃, d₁, _, ⟨hd₁, rfl⟩, d₂, m₄, ⟨l, t, hl, hvalid, hd₂⟩, m₅, h₅, rfl, rfl⟩ := h
      obtain ⟨hmem, rfl⟩ := Scope.block?_eq_some_iff.1 hb
      have hlabel : Spells [.ident label] (lx :: m₁) m₁ := Spells.of_iff.2 ⟨lx, rfl, ht⟩
      refine ⟨⟨label, l, t⟩, ?_, ⟨hvalid, hmem⟩, ?_⟩
      · have hall := (((hlabel.append h₂).append h₃).append hl).append h₅
        simp only [Tree.Block.leaves, List.append_assoc] at hall ⊢
        exact hall
      · simp only [Draft.fill, hd₁]
        exact hd₂
  · rintro ⟨⟨label, l, t⟩, h, ⟨hvalid, hmem⟩, hd⟩
    simp only [Tree.Block.leaves, Spells.append_iff (l := [.mark .curlyClose]),
      Spells.append_iff (l := t.leaves), Spells.append_iff (l := l.flatMap _),
      Spells.cons_cons_iff] at h
    obtain ⟨m₅, ⟨m₄, ⟨m₃, ⟨m₁, hlabel, m₂, h₂, h₃⟩, hl⟩, ht⟩, h₅⟩ := h
    obtain ⟨lx, rfl, htoken⟩ := Spells.of_iff.1 hlabel
    refine ⟨(label, lx), m₁, ident_eq_ok_iff.2 ⟨rfl, htoken⟩, ?_⟩
    unfold Draft.fill at hd
    cases hd₁ : d.switchTo (s.block label) with
    | error e =>
      simp only [hd₁] at hd
      cases hd
    | ok d₁ =>
      simp only [hd₁] at hd
      simp only [Scope.block?_eq_some_iff.2 ⟨hmem, rfl⟩, expectMark_bind_eq_ok_iff,
        bind_eq_ok_iff (p := drafted lx _), drafted_eq_ok_iff, bind_eq_ok_iff (p := loop (line s) _),
        lines_eq_ok_iff, pure_eq_ok_iff]
      exact ⟨m₂, h₂, m₃, h₃, d₁, m₃, ⟨hd₁, rfl⟩, d', m₅, ⟨l, t, hl.append ht, hvalid, hd⟩, rest, h₅, rfl, rfl⟩

end Parser

end BlockIR
