import BlockIR.Proofs.Grammar.Reading

/-!
# Reading code accepts its grammar

Each reader of operands, statements and terminators takes the leaves of exactly the valid trees of its
production, and gives what the tree denotes.
-/

namespace BlockIR

lemma Place.ofToken?_eq_some_iff {t : Token} {p : Place} : Place.ofToken? t = some p ↔ t = p.token := by
  constructor
  · intro h
    unfold Place.ofToken? at h
    split at h <;> cases h <;> rfl
  · rintro rfl
    cases p <;> rfl

namespace Tree

lemma Constant.ofToken?_token_eq_some_iff {l : Constant} {c : BlockIR.Constant} :
    BlockIR.Constant.ofToken? l.token = some (some c) ↔ l.Valid ∧ l.denote = c := by
  have hmap {α : Type} {o : Option α} {kind : α → BlockIR.Constant} {P : Prop} {v : α}
      (h : ∀ x, o = some x ↔ P ∧ v = x) : some (o.map kind) = some (some c) ↔ P ∧ kind v = c := by
    simp only [Option.some.injEq, Option.map_eq_some_iff, h]
    constructor
    · rintro ⟨_, ⟨hP, rfl⟩, rfl⟩
      exact ⟨hP, rfl⟩
    · rintro ⟨hP, rfl⟩
      exact ⟨v, ⟨hP, rfl⟩, rfl⟩
  cases l with
  | int s => exact hmap fun _ => Literal.int?_eq_some_iff
  | uint s => exact hmap fun _ => Literal.uint?_eq_some_iff
  | float s => exact hmap fun _ => Literal.float?_eq_some_iff
  | str s => exact hmap fun _ => Literal.str?_eq_some_iff
  | bool b => exact hmap (o := some b) (P := True) fun x => by simp

lemma Constant.ofToken?_eq_some_iff {t : Token} {c : BlockIR.Constant} :
    BlockIR.Constant.ofToken? t = some (some c) ↔ ∃ l : Constant, t = l.token ∧ l.Valid ∧ l.denote = c := by
  simp only [← ofToken?_token_eq_some_iff]
  constructor
  · intro h
    have hl : ∃ l : Constant, t = l.token := by
      unfold BlockIR.Constant.ofToken? at h
      split at h
      · exact ⟨.int _, rfl⟩
      · exact ⟨.uint _, rfl⟩
      · exact ⟨.float _, rfl⟩
      · exact ⟨.str _, rfl⟩
      · exact ⟨.bool _, rfl⟩
      · cases h
    obtain ⟨l, rfl⟩ := hl
    exact ⟨l, rfl, h⟩
  · rintro ⟨l, rfl, h⟩
    exact h

lemma Operand.front_of_spells (t : Operand) {ts rest : List Lexeme} (h : Spells t.leaves ts rest) :
    ∃ lx ts', ts = lx :: ts' ∧ (lx.token = .keyword .const ∨ ∃ p : Place, lx.token = p.token) := by
  cases t with
  | read p =>
    obtain ⟨lx, ts', rfl, hl, -⟩ := h
    exact ⟨lx, ts', rfl, .inr ⟨p, hl.1⟩⟩
  | const c =>
    obtain ⟨lx, ts', rfl, hl, -⟩ := h
    exact ⟨lx, ts', rfl, .inl hl.1⟩
  | item name =>
    obtain ⟨lx, ts', rfl, hl, -⟩ := h
    exact ⟨lx, ts', rfl, .inl hl.1⟩

end Tree

namespace Scope

variable {names : List String} {name : String}

lemma idxOf?_eq_some (h : name ∈ names) : names.idxOf? name = some (names.idxOf name) := by
  obtain ⟨i, hi⟩ := Option.isSome_iff_exists.1 (List.isSome_idxOf?.2 h)
  have hidx : names.idxOf name = (names.idxOf? name).getD names.length := List.findIdx_eq_getD_findIdx?
  rw [hidx, hi, Option.getD_some]

lemma key?_eq_some_iff {κ : Type} [Key κ] {k : κ} :
    key? names name = some k ↔ name ∈ names ∧ Key.ofNat (names.idxOf name) = k := by
  unfold key?
  by_cases h : name ∈ names
  · simp only [idxOf?_eq_some h, Option.map_some, Option.some.injEq, h, true_and]
  · simp only [List.idxOf?_eq_none_iff.2 h, Option.map_none, reduceCtorEq, h, false_and]

lemma function?_eq_some_iff {s : Scope} {f : FuncId} :
    s.function? name = some f ↔ name ∈ s.functions ∧ s.function name = f := key?_eq_some_iff

lemma block?_eq_some_iff {s : Scope} {b : BlockId} :
    s.block? name = some b ↔ name ∈ s.labels ∧ s.block name = b := key?_eq_some_iff

end Scope

namespace Parser

variable {s : Scope} {ts rest : List Lexeme}

lemma place_reads : place.Reads (fun p => [.of p.token]) (fun p x => p = x) := by
  intro ts x rest
  simp only [Spells.of_iff]
  cases ts with
  | nil =>
    constructor
    · intro h
      cases h
    · rintro ⟨p, ⟨lx, h, -⟩, -⟩
      cases h
  | cons lx ts =>
    unfold place
    rw [next_bind_cons]
    constructor
    · intro h
      cases hp : Place.ofToken? lx.token with
      | none =>
        simp only [hp] at h
        cases h
      | some p =>
        simp only [hp] at h
        cases h
        exact ⟨x, ⟨lx, rfl, Place.ofToken?_eq_some_iff.1 hp⟩, rfl⟩
    · rintro ⟨p, ⟨lx', h, hp⟩, rfl⟩
      cases h
      simp only [Place.ofToken?_eq_some_iff.2 hp]
      rfl

lemma constant_reads :
    constant.Reads (fun c : Tree.Constant => [.of c.token]) (fun c x => c.Valid ∧ c.denote = x) := by
  intro ts x rest
  simp only [Spells.of_iff]
  cases ts with
  | nil =>
    constructor
    · intro h
      cases h
    · rintro ⟨c, ⟨lx, h, -⟩, -⟩
      cases h
  | cons lx ts =>
    unfold constant
    rw [next_bind_cons]
    constructor
    · intro h
      rcases hc : Constant.ofToken? lx.token with _ | _ | c <;> simp only [hc] at h <;> cases h
      obtain ⟨l, hl, hvalue⟩ := Tree.Constant.ofToken?_eq_some_iff.1 hc
      exact ⟨l, ⟨lx, rfl, hl⟩, hvalue⟩
    · rintro ⟨l, ⟨lx', h, hl⟩, hvalue⟩
      cases h
      simp only [Tree.Constant.ofToken?_eq_some_iff.2 ⟨l, hl, hvalue⟩]
      rfl

lemma literal_eq_ok_iff {x : Operand} :
    literal s ts = .ok (x, rest) ↔
      (∃ name, Spells [.ident name] ts rest ∧ name ∈ s.functions ∧ .func (s.function name) = x) ∨
      ∃ c : Tree.Constant, Spells [.of c.token] ts rest ∧ c.Valid ∧ .const c.denote = x := by
  cases ts with
  | nil =>
    constructor
    · intro h
      cases h
    · rintro (⟨name, ⟨lx, ts', h, -⟩, -⟩ | ⟨c, ⟨lx, ts', h, -⟩, -⟩) <;> cases h
  | cons lx ts =>
    unfold literal
    rw [peek_bind_cons]
    constructor
    · intro h
      cases ht : lx.token with
      | ident name =>
        simp only [ht, skip_bind_cons] at h
        cases hf : s.function? name with
        | none =>
          simp only [hf] at h
          cases h
        | some f =>
          simp only [hf] at h
          cases h
          obtain ⟨hname, rfl⟩ := Scope.function?_eq_some_iff.1 hf
          exact .inl ⟨name, Spells.of_iff.2 ⟨lx, rfl, ht⟩, hname, rfl⟩
      | _ =>
        simp only [ht] at h
        obtain ⟨c, mid, hc, h⟩ := bind_eq_ok_iff.1 h
        obtain ⟨rfl, rfl⟩ := pure_eq_ok_iff.1 h
        obtain ⟨l, hl, hvalid, rfl⟩ := (constant_reads _ _ _).1 hc
        exact .inr ⟨l, hl, hvalid, rfl⟩
    · rintro (⟨name, h, hname, rfl⟩ | ⟨c, h, hvalid, rfl⟩)
      · obtain ⟨lx', hlx, ht⟩ := Spells.of_iff.1 h
        cases hlx
        simp only [ht, skip_bind_cons, Scope.function?_eq_some_iff.2 ⟨hname, rfl⟩]
        rfl
      · have hc := (constant_reads _ _ _).2 ⟨c, h, hvalid, rfl⟩
        obtain ⟨lx', hlx, ht⟩ := Spells.of_iff.1 h
        cases hlx
        cases c <;> simp only [ht, Tree.Constant.token] <;>
          exact bind_eq_ok_iff.2 ⟨_, rest, hc, rfl⟩

lemma operand_reads :
    (operand s).Reads Tree.Operand.leaves (fun t x => t.Valid s ∧ t.denote s = x) := by
  intro ts x rest
  constructor
  · intro h
    unfold operand at h
    cases ts with
    | nil => cases h
    | cons lx ts =>
      rw [peek_bind_cons] at h
      have of_place : (place >>= fun p => pure (Operand.read p)) (lx :: ts) = .ok (x, rest) →
          ∃ t : Tree.Operand, Spells t.leaves (lx :: ts) rest ∧ t.Valid s ∧ t.denote s = x := by
        intro h
        obtain ⟨p, mid, hp, h⟩ := bind_eq_ok_iff.1 h
        obtain ⟨rfl, rfl⟩ := pure_eq_ok_iff.1 h
        obtain ⟨q, hq, rfl⟩ := (place_reads _ _ _).1 hp
        exact ⟨.read q, hq, trivial, rfl⟩
      cases ht : lx.token with
      | keyword k =>
        cases k with
        | const =>
          simp only [ht, skip_bind_cons] at h
          have hconst : Spells [.word .const] (lx :: ts) ts := Spells.of_iff.2 ⟨lx, rfl, ht⟩
          rcases literal_eq_ok_iff.1 h with ⟨name, hname, hmem, rfl⟩ | ⟨c, hc, hvalid, rfl⟩
          · exact ⟨.item name, hconst.append hname, hmem, rfl⟩
          · exact ⟨.const c, hconst.append hc, hvalid, rfl⟩
        | ret =>
          simp only [ht] at h
          exact of_place h
        | _ =>
          simp only [ht] at h
          cases h
      | arg i =>
        simp only [ht] at h
        exact of_place h
      | var i =>
        simp only [ht] at h
        exact of_place h
      | temp i =>
        simp only [ht] at h
        exact of_place h
      | _ =>
        simp only [ht] at h
        cases h
  · rintro ⟨t, h, hvalid, rfl⟩
    unfold operand
    cases t with
    | read p =>
      have hplace := (place_reads _ _ _).2 ⟨p, h, rfl⟩
      obtain ⟨lx, rfl, ht⟩ := Spells.of_iff.1 h
      rw [peek_bind_cons]
      cases p <;> simp only [ht, Place.token] <;> exact bind_eq_ok_iff.2 ⟨_, rest, hplace, rfl⟩
    | const c =>
      obtain ⟨mid, hconst, hrest⟩ := Spells.cons_cons_iff.1 h
      obtain ⟨lx, rfl, ht⟩ := Spells.of_iff.1 hconst
      rw [peek_bind_cons]
      simp only [ht, skip_bind_cons]
      exact literal_eq_ok_iff.2 (.inr ⟨c, hrest, hvalid, rfl⟩)
    | item name =>
      obtain ⟨mid, hconst, hrest⟩ := Spells.cons_cons_iff.1 h
      obtain ⟨lx, rfl, ht⟩ := Spells.of_iff.1 hconst
      rw [peek_bind_cons]
      simp only [ht, skip_bind_cons]
      exact literal_eq_ok_iff.2 (.inl ⟨name, hrest, hvalid, rfl⟩)

lemma callee_reads :
    (callee s).Reads Tree.Callee.leaves (fun t x => t.Valid s ∧ t.denote s = x) := by
  intro ts x rest
  unfold callee
  rw [front?_bind]
  constructor
  · intro h
    have of_operand : operand s ts = .ok (x, rest) →
        ∃ t : Tree.Callee, Spells t.leaves ts rest ∧ t.Valid s ∧ t.denote s = x := by
      intro h
      obtain ⟨t, ht, hvalid, rfl⟩ := (operand_reads _ _ _).1 h
      exact ⟨.operand t, ht, hvalid, rfl⟩
    cases ts with
    | nil => exact of_operand h
    | cons lx ts =>
      cases ht : lx.token with
      | ident name =>
        simp only [List.head?_cons, Option.map_some, ht] at h
        rcases literal_eq_ok_iff.1 h with ⟨name, hname, hmem, rfl⟩ | ⟨c, hc, -⟩
        · exact ⟨.bare name, hname, hmem, rfl⟩
        · obtain ⟨lx', hlx, htoken⟩ := Spells.of_iff.1 hc
          cases hlx
          rw [ht] at htoken
          cases c <;> cases htoken
      | _ =>
        simp only [List.head?_cons, Option.map_some, ht] at h
        exact of_operand h
  · rintro ⟨t, h, hvalid, rfl⟩
    cases t with
    | bare name =>
      have hliteral := literal_eq_ok_iff (s := s).2 (.inl ⟨name, h, hvalid, rfl⟩)
      obtain ⟨lx, rfl, ht⟩ := Spells.of_iff.1 h
      simp only [List.head?_cons, Option.map_some, ht]
      exact hliteral
    | operand t =>
      have hoperand := (operand_reads _ _ _).2 ⟨t, h, hvalid, rfl⟩
      obtain ⟨lx, ts', rfl, ht | ⟨p, ht⟩⟩ := t.front_of_spells h
      · simp only [List.head?_cons, Option.map_some, ht]
        exact hoperand
      · cases p <;> simp only [List.head?_cons, Option.map_some, ht, Place.token] <;> exact hoperand

lemma rvalue_reads :
    (rvalue s).Reads Tree.Rvalue.leaves (fun t x => t.Valid s ∧ t.denote s = x) := by
  intro ts x rest
  unfold rvalue
  rw [front?_bind]
  constructor
  · intro h
    have of_operand : (operand s >>= fun x => pure (Rvalue.use x)) ts = .ok (x, rest) →
        ∃ t : Tree.Rvalue, Spells t.leaves ts rest ∧ t.Valid s ∧ t.denote s = x := by
      intro h
      obtain ⟨t, o, mid, ht, ⟨hvalid, rfl⟩, h⟩ := operand_reads.bind_eq_ok_iff.1 h
      obtain ⟨rfl, rfl⟩ := pure_eq_ok_iff.1 h
      exact ⟨.use t, ht, hvalid, rfl⟩
    cases ts with
    | nil => exact of_operand h
    | cons lx ts =>
      cases ht : lx.token with
      | binOp op =>
        simp only [List.head?_cons, Option.map_some, ht, skip_bind_cons, expectMark_bind_eq_ok_iff,
          operand_reads.bind_eq_ok_iff, pure_eq_ok_iff] at h
        obtain ⟨m₁, h₁, a, _, m₂, ha, ⟨hva, rfl⟩, m₃, h₃, b, _, m₄, hb, ⟨hvb, rfl⟩, m₅, h₅, rfl, rfl⟩ := h
        have hop : Spells [.of (.binOp op)] (lx :: ts) ts := Spells.of_iff.2 ⟨lx, rfl, ht⟩
        exact ⟨.binary op a b, ((((hop.append h₁).append ha).append h₃).append hb).append h₅,
          ⟨hva, hvb⟩, rfl⟩
      | unOp op =>
        simp only [List.head?_cons, Option.map_some, ht, skip_bind_cons, expectMark_bind_eq_ok_iff,
          operand_reads.bind_eq_ok_iff, pure_eq_ok_iff] at h
        obtain ⟨m₁, h₁, a, _, m₂, ha, ⟨hva, rfl⟩, m₃, h₃, rfl, rfl⟩ := h
        have hop : Spells [.of (.unOp op)] (lx :: ts) ts := Spells.of_iff.2 ⟨lx, rfl, ht⟩
        exact ⟨.unary op a, ((hop.append h₁).append ha).append h₃, hva, rfl⟩
      | _ =>
        simp only [List.head?_cons, Option.map_some, ht] at h
        exact of_operand h
  · rintro ⟨t, h, hvalid, rfl⟩
    cases t with
    | use t =>
      have huse := operand_reads.bind_eq_ok_iff (k := fun x => pure (Rvalue.use x)).2
        ⟨t, _, rest, h, ⟨hvalid, rfl⟩, rfl⟩
      obtain ⟨lx, ts', rfl, ht | ⟨p, ht⟩⟩ := t.front_of_spells h
      · simp only [List.head?_cons, Option.map_some, ht]
        exact huse
      · cases p <;> simp only [List.head?_cons, Option.map_some, ht, Place.token] <;> exact huse
    | binary op a b =>
      simp only [Tree.Rvalue.leaves, Spells.append_iff, Spells.cons_cons_iff] at h
      obtain ⟨m₅, ⟨m₄, ⟨m₃, ⟨m₂, ⟨m₁, hop, h₁⟩, ha⟩, h₃⟩, hb⟩, h₅⟩ := h
      obtain ⟨lx, rfl, ht⟩ := Spells.of_iff.1 hop
      simp only [List.head?_cons, Option.map_some, ht, skip_bind_cons, expectMark_bind_eq_ok_iff,
        operand_reads.bind_eq_ok_iff, pure_eq_ok_iff]
      exact ⟨_, h₁, a, _, _, ha, ⟨hvalid.1, rfl⟩, _, h₃, b, _, _, hb, ⟨hvalid.2, rfl⟩, _, h₅, rfl, rfl⟩
    | unary op a =>
      simp only [Tree.Rvalue.leaves, Spells.append_iff, Spells.cons_cons_iff] at h
      obtain ⟨m₃, ⟨m₂, ⟨m₁, hop, h₁⟩, ha⟩, h₃⟩ := h
      obtain ⟨lx, rfl, ht⟩ := Spells.of_iff.1 hop
      simp only [List.head?_cons, Option.map_some, ht, skip_bind_cons, expectMark_bind_eq_ok_iff,
        operand_reads.bind_eq_ok_iff, pure_eq_ok_iff]
      exact ⟨_, h₁, a, _, _, ha, ⟨hvalid, rfl⟩, _, h₃, rfl, rfl⟩

lemma target_reads : (target s).Reads (fun l => [.ident l]) (fun l x => l ∈ s.labels ∧ s.block l = x) := by
  intro ts x rest
  unfold target
  rw [bind_eq_ok_iff]
  constructor
  · rintro ⟨⟨l, lx⟩, mid, hident, h⟩
    obtain ⟨rfl, ht⟩ := ident_eq_ok_iff.1 hident
    cases hb : s.block? l with
    | none =>
      simp only [hb] at h
      cases h
    | some b =>
      simp only [hb] at h
      cases h
      exact ⟨l, Spells.of_iff.2 ⟨lx, rfl, ht⟩, Scope.block?_eq_some_iff.1 hb⟩
  · rintro ⟨l, h, hl⟩
    obtain ⟨lx, rfl, ht⟩ := Spells.of_iff.1 h
    refine ⟨(l, lx), rest, ident_eq_ok_iff.2 ⟨rfl, ht⟩, ?_⟩
    simp only [Scope.block?_eq_some_iff.2 hl]
    rfl

lemma arguments_reads :
    (parenthesized (fun (xs : Array Operand) => return xs.push (← operand s)) #[]).Reads
      (fun l : List Tree.Operand => Leaf.commas (l.map Tree.Operand.leaves) ++ [.mark .parenClose])
      (fun l xs => (∀ t ∈ l, t.Valid s) ∧ l.map (·.denote s) = xs.toList) := by
  intro ts xs rest
  have hitem : ∀ xs : Array Operand, (operand s >>= fun x => pure (xs.push x)).Reads Tree.Operand.leaves
      (fun t xs' => t.Valid s ∧ xs.push (t.denote s) = xs') := by
    intro xs ts xs' rest
    rw [operand_reads.bind_eq_ok_iff]
    constructor
    · rintro ⟨t, x, mid, ht, ⟨hvalid, rfl⟩, h⟩
      obtain ⟨rfl, rfl⟩ := pure_eq_ok_iff.1 h
      exact ⟨t, ht, hvalid, rfl⟩
    · rintro ⟨t, ht, hvalid, rfl⟩
      exact ⟨t, _, rest, ht, ⟨hvalid, rfl⟩, rfl⟩
  have hhead : ∀ t : Tree.Operand, ∃ l ls, t.leaves = l :: ls ∧ l.token ≠ .mark .parenClose := by
    intro t
    cases t with
    | read p =>
      refine ⟨_, _, rfl, ?_⟩
      cases p <;> intro h <;> cases h
    | const c =>
      refine ⟨_, _, rfl, ?_⟩
      intro h
      cases h
    | item name =>
      refine ⟨_, _, rfl, ?_⟩
      intro h
      cases h
  refine (parenthesized_eq_ok_iff hitem hhead).trans ?_
  simp only [follows_push_iff]

lemma not_call_of_spells {t : Tree.Rvalue} (h : Spells t.leaves ts rest) :
    ts.head?.map (·.token) ≠ some (.keyword .call) := by
  intro hcall
  cases t with
  | use x =>
    obtain ⟨lx, ts', rfl, ht | ⟨p, ht⟩⟩ := x.front_of_spells h
    · cases ht.symm.trans (Option.some.inj hcall)
    · cases p <;> cases ht.symm.trans (Option.some.inj hcall)
  | binary op x y =>
    obtain ⟨lx, ts', rfl, hl, -⟩ := h
    cases hl.1.symm.trans (Option.some.inj hcall)
  | unary op x =>
    obtain ⟨lx, ts', rfl, hl, -⟩ := h
    cases hl.1.symm.trans (Option.some.inj hcall)

lemma assignment_eq_ok_iff {p : Place} {r : Action ⊕ Transfer} :
    assignment s p ts = .ok (r, rest) ↔
      (∃ t : Tree.Rvalue, Spells ([.mark .eq] ++ t.leaves ++ [.mark .semi]) ts rest ∧
        t.Valid s ∧ .inl (.assign p (t.denote s)) = r) ∨
      ∃ (f : Tree.Callee) (xs : List Tree.Operand) (l : String),
        Spells ([.mark .eq, .word .call] ++ f.leaves ++ [.mark .parenOpen] ++
          (Leaf.commas (xs.map Tree.Operand.leaves) ++ [.mark .parenClose]) ++
          [.mark .arrow, .ident l, .mark .semi]) ts rest ∧
        (f.Valid s ∧ (∀ x ∈ xs, x.Valid s) ∧ l ∈ s.labels) ∧
        .inr (.call p (f.denote s) (xs.map (·.denote s)) (s.block l)) = r := by
  unfold assignment endOfTerminator endOfStatement
  simp only [expectMark_bind_eq_ok_iff, nextIs_bind]
  constructor
  · rintro ⟨m₁, h₁, h⟩
    by_cases hcall : m₁.head?.map (·.token) = some (.keyword .call)
    · simp only [hcall, decide_true, if_true] at h
      cases m₁ with
      | nil => cases hcall
      | cons lx m₁ =>
        simp only [skip_bind_cons, callee_reads.bind_eq_ok_iff, expectMark_bind_eq_ok_iff,
          arguments_reads.bind_eq_ok_iff, target_reads.bind_eq_ok_iff, pure_eq_ok_iff] at h
        obtain ⟨f, _, m₂, hf, ⟨hvf, rfl⟩, m₃, h₃, xs, _, m₄, hxs, ⟨hvxs, hxs'⟩, m₅, h₅, l, _, m₆, hl,
          ⟨hml, rfl⟩, m₇, h₇, rfl, rfl⟩ := h
        have hword : Spells [.word .call] (lx :: m₁) m₁ := Spells.of_iff.2 ⟨lx, rfl, Option.some.inj hcall⟩
        have hfront := (((h₁.append hword).append hf).append h₃).append hxs
        refine .inr ⟨f, xs, l, hfront.append ((h₅.append hl).append h₇), ⟨hvf, hvxs, hml⟩, ?_⟩
        rw [hxs']
    · simp only [hcall, decide_false, Bool.false_eq_true, if_false, rvalue_reads.bind_eq_ok_iff,
        expectMark_bind_eq_ok_iff, pure_eq_ok_iff] at h
      obtain ⟨t, _, m₂, ht, ⟨hvalid, rfl⟩, m₃, h₃, rfl, rfl⟩ := h
      exact .inl ⟨t, (h₁.append ht).append h₃, hvalid, rfl⟩
  · rintro (⟨t, h, hvalid, rfl⟩ | ⟨f, xs, l, h, ⟨hvf, hvxs, hml⟩, rfl⟩)
    · simp only [Spells.append_iff] at h
      obtain ⟨m₂, ⟨m₁, h₁, ht⟩, h₃⟩ := h
      refine ⟨m₁, h₁, ?_⟩
      simp only [not_call_of_spells ht, decide_false, Bool.false_eq_true, if_false,
        rvalue_reads.bind_eq_ok_iff, expectMark_bind_eq_ok_iff, pure_eq_ok_iff]
      exact ⟨t, _, m₂, ht, ⟨hvalid, rfl⟩, rest, h₃, rfl, rfl⟩
    · rw [Spells.append_iff] at h
      obtain ⟨m₄, h, h'⟩ := h
      rw [Spells.append_iff] at h
      obtain ⟨m₃, h, hxs⟩ := h
      simp only [Spells.append_iff, Spells.cons_cons_iff] at h h'
      obtain ⟨m₂, ⟨m₁, ⟨m₀, h₀, hword⟩, hf⟩, h₂⟩ := h
      obtain ⟨m₅, h₅, m₆, hl, h₆⟩ := h'
      obtain ⟨lx, rfl, ht⟩ := Spells.of_iff.1 hword
      refine ⟨lx :: m₁, h₀, ?_⟩
      simp only [List.head?_cons, Option.map_some, ht, decide_true, if_true, skip_bind_cons,
        callee_reads.bind_eq_ok_iff, expectMark_bind_eq_ok_iff, arguments_reads.bind_eq_ok_iff,
        target_reads.bind_eq_ok_iff, pure_eq_ok_iff]
      exact ⟨f, _, m₂, hf, ⟨hvf, rfl⟩, m₃, h₂, xs, (xs.map (·.denote s)).toArray, m₄, hxs, ⟨hvxs, rfl⟩,
        m₅, h₅, l, _, m₆, hl, ⟨hml, rfl⟩, rest, h₆, rfl, rfl⟩

section Words

variable {lx : Lexeme}

lemma drop_eq_ok_iff {kind : DropKind} {a : Action} :
    drop kind (lx :: ts) = .ok (a, rest) ↔ ∃ p : Place,
      Spells [.mark .parenOpen, .of p.token, .mark .parenClose, .mark .semi] ts rest ∧ .drop kind p = a := by
  unfold drop endOfStatement
  simp only [skip_bind_cons, expectMark_bind_eq_ok_iff, place_reads.bind_eq_ok_iff, pure_eq_ok_iff,
    Spells.cons_cons_iff]
  constructor
  · rintro ⟨m₁, h₁, p, _, m₂, hp, rfl, m₃, h₃, m₄, h₄, rfl, rfl⟩
    exact ⟨p, ⟨m₁, h₁, m₂, hp, m₃, h₃, h₄⟩, rfl⟩
  · rintro ⟨p, ⟨m₁, h₁, m₂, hp, m₃, h₃, h₄⟩, rfl⟩
    exact ⟨m₁, h₁, p, p, m₂, hp, rfl, m₃, h₃, rest, h₄, rfl, rfl⟩

lemma jump_eq_ok_iff {arrow : String} {b : BlockId} :
    jump s arrow (lx :: ts) = .ok (b, rest) ↔ ∃ l,
      Spells [.mark .arrow, .ident l, .mark .semi] ts rest ∧ l ∈ s.labels ∧ s.block l = b := by
  unfold jump endOfTerminator
  simp only [skip_bind_cons, expectMark_bind_eq_ok_iff, target_reads.bind_eq_ok_iff, pure_eq_ok_iff,
    Spells.cons_cons_iff]
  constructor
  · rintro ⟨m₁, h₁, l, _, m₂, hl, ⟨hmem, rfl⟩, m₃, h₃, rfl, rfl⟩
    exact ⟨l, ⟨m₁, h₁, m₂, hl, h₃⟩, hmem, rfl⟩
  · rintro ⟨l, ⟨m₁, h₁, m₂, hl, h₃⟩, hmem, rfl⟩
    exact ⟨m₁, h₁, l, _, m₂, hl, ⟨hmem, rfl⟩, rest, h₃, rfl, rfl⟩

lemma branch_eq_ok_iff {r : Transfer} :
    branch s (lx :: ts) = .ok (r, rest) ↔ ∃ (c : Tree.Operand) (t e : String),
      Spells ([.mark .parenOpen] ++ c.leaves ++
        [.mark .parenClose, .mark .arrow, .mark .squareOpen, .of (.bool true), .mark .colon, .ident t,
          .mark .comma, .of (.bool false), .mark .colon, .ident e, .mark .squareClose, .mark .semi]) ts rest ∧
      (c.Valid s ∧ t ∈ s.labels ∧ e ∈ s.labels) ∧ .branch (c.denote s) (s.block t) (s.block e) = r := by
  unfold branch endOfTerminator
  simp only [skip_bind_cons, expectMark_bind_eq_ok_iff, expect_bind_eq_ok_iff,
    operand_reads.bind_eq_ok_iff, target_reads.bind_eq_ok_iff, pure_eq_ok_iff, Spells.append_iff,
    Spells.cons_cons_iff]
  constructor
  · rintro ⟨m₁, h₁, c, _, m₂, hc, ⟨hvc, rfl⟩, m₃, h₃, m₄, h₄, m₅, h₅, m₆, h₆, m₇, h₇, t, _, m₈, ht,
      ⟨hmt, rfl⟩, m₉, h₉, m₁₀, h₁₀, m₁₁, h₁₁, e, _, m₁₂, he, ⟨hme, rfl⟩, m₁₃, h₁₃, m₁₄, h₁₄, rfl, rfl⟩
    exact ⟨c, t, e, ⟨m₂, ⟨m₁, h₁, hc⟩, m₃, h₃, m₄, h₄, m₅, h₅, m₆, h₆, m₇, h₇, m₈, ht, m₉, h₉, m₁₀, h₁₀,
      m₁₁, h₁₁, m₁₂, he, m₁₃, h₁₃, h₁₄⟩, ⟨hvc, hmt, hme⟩, rfl⟩
  · rintro ⟨c, t, e, ⟨m₂, ⟨m₁, h₁, hc⟩, m₃, h₃, m₄, h₄, m₅, h₅, m₆, h₆, m₇, h₇, m₈, ht, m₉, h₉, m₁₀, h₁₀,
      m₁₁, h₁₁, m₁₂, he, m₁₃, h₁₃, h₁₄⟩, ⟨hvc, hmt, hme⟩, rfl⟩
    exact ⟨m₁, h₁, c, _, m₂, hc, ⟨hvc, rfl⟩, m₃, h₃, m₄, h₄, m₅, h₅, m₆, h₆, m₇, h₇, t, _, m₈, ht,
      ⟨hmt, rfl⟩, m₉, h₉, m₁₀, h₁₀, m₁₁, h₁₁, e, _, m₁₂, he, ⟨hme, rfl⟩, m₁₃, h₁₃, rest, h₁₄, rfl, rfl⟩

end Words

lemma case_eq_ok_iff {α : Type} {k : Constant → BlockId → Parser α} {x : α} :
    (constant >>= fun c => discard (expectMark .colon "`:` after switch value") >>= fun _ =>
      target s >>= fun b => k c b) ts = .ok (x, rest) ↔
    ∃ (c : Tree.Case) (mid : List Lexeme), Spells c.leaves ts mid ∧ c.Valid s ∧
      k (c.denote s).1 (c.denote s).2 mid = .ok (x, rest) := by
  simp only [constant_reads.bind_eq_ok_iff, expectMark_bind_eq_ok_iff, target_reads.bind_eq_ok_iff]
  constructor
  · rintro ⟨c, _, m₁, hc, ⟨hvalid, rfl⟩, m₂, h₂, l, _, m₃, hl, ⟨hmem, rfl⟩, h⟩
    exact ⟨⟨c, l⟩, m₃, (hc.append h₂).append hl, ⟨hvalid, hmem⟩, h⟩
  · rintro ⟨⟨c, l⟩, m₃, hcase, ⟨hvalid, hmem⟩, h⟩
    simp only [Tree.Case.leaves, Spells.cons_cons_iff] at hcase
    obtain ⟨m₁, hc, m₂, h₂, hl⟩ := hcase
    exact ⟨c, _, m₁, hc, ⟨hvalid, rfl⟩, m₂, h₂, l, _, m₃, hl, ⟨hmem, rfl⟩, h⟩

/-- What follows a case: a comma, or the closing bracket. -/
def afterCase (cases : Cases) : Parser (Cases ⊕ (Cases × Option BlockId)) := do
  if ← nextIs (.mark .comma) then
    skip
    return .inl cases
  else
    discard <| expectMark .squareClose "`,` or `]`"
    return .inr (cases, none)

lemma afterCase_eq_ok_iff {cases : Cases} {r : Cases ⊕ Cases × Option BlockId} :
    afterCase cases ts = .ok (r, rest) ↔ (Spells [.mark .comma] ts rest ∧ .inl cases = r) ∨
      (Spells [.mark .squareClose] ts rest ∧ .inr (cases, none) = r) := by
  unfold afterCase
  rw [nextIs_bind]
  by_cases hcomma : ts.head?.map (·.token) = some (.mark .comma)
  · simp only [hcomma, decide_true, if_true]
    cases ts with
    | nil => cases hcomma
    | cons lx ts =>
      rw [skip_bind_cons, pure_eq_ok_iff]
      have ht : lx.token = .mark .comma := Option.some.inj hcomma
      constructor
      · rintro ⟨rfl, rfl⟩
        exact .inl ⟨Spells.of_iff.2 ⟨lx, rfl, ht⟩, rfl⟩
      · rintro (⟨h, rfl⟩ | ⟨h, rfl⟩) <;> obtain ⟨lx', hlx, ht'⟩ := Spells.of_iff.1 h <;> cases hlx
        · exact ⟨rfl, rfl⟩
        · cases ht.symm.trans ht'
  · simp only [hcomma, decide_false, Bool.false_eq_true, if_false, expectMark_bind_eq_ok_iff,
      pure_eq_ok_iff]
    constructor
    · rintro ⟨mid, h, rfl, rfl⟩
      exact .inr ⟨h, rfl⟩
    · rintro (⟨h, rfl⟩ | ⟨h, rfl⟩)
      · obtain ⟨lx, rfl, ht⟩ := Spells.of_iff.1 h
        exact absurd (congrArg some ht) hcomma
      · exact ⟨rest, h, rfl, rfl⟩

/-- A round of the loop over the cases of a switch takes a case and a comma, or what ends the cases. -/
def RoundOf (s : Scope) (cases : Cases) (ts rest : List Lexeme) (r : Cases ⊕ Cases × Option BlockId) : Prop :=
  (∃ c : Tree.Case, Spells (c.leaves ++ [.mark .comma]) ts rest ∧ c.Valid s ∧
    .inl (cases.push (c.denote s)) = r) ∨
  ∃ e : Tree.Ending, Spells e.leaves ts rest ∧ e.Valid s ∧
    .inr (e.case?.toList.foldl (fun cases c => cases.push (c.denote s)) cases, e.otherwise?.map s.block) = r

section Rounds

variable {cases : Cases} {r : Cases ⊕ Cases × Option BlockId}

lemma roundOf_of_case
    (h : (constant >>= fun c => discard (expectMark .colon "`:` after switch value") >>= fun _ =>
      target s >>= fun b => afterCase (cases.push (c, b))) ts = .ok (r, rest)) :
    RoundOf s cases ts rest r := by
  obtain ⟨c, mid, hc, hvalid, h⟩ := case_eq_ok_iff.1 h
  rcases afterCase_eq_ok_iff.1 h with ⟨hcomma, rfl⟩ | ⟨hclose, rfl⟩
  · exact .inl ⟨c, hc.append hcomma, hvalid, rfl⟩
  · exact .inr ⟨.last c, hc.append hclose, hvalid, rfl⟩

lemma roundOf_of_switchCase (h : switchCase s cases ts = .ok (r, rest)) : RoundOf s cases ts rest r := by
  unfold switchCase at h
  cases ts with
  | nil => cases h
  | cons lx ts =>
    rw [peek_bind_cons] at h
    cases ht : lx.token with
    | mark m =>
      cases m with
      | squareClose =>
        simp only [ht, skip_bind_cons, pure_eq_ok_iff] at h
        obtain ⟨rfl, rfl⟩ := h
        exact .inr ⟨.nothing, Spells.of_iff.2 ⟨lx, rfl, ht⟩, trivial, rfl⟩
      | _ =>
        simp only [ht] at h
        exact roundOf_of_case h
    | keyword k =>
      cases k with
      | otherwise =>
        simp only [ht, skip_bind_cons, expectMark_bind_eq_ok_iff, target_reads.bind_eq_ok_iff,
          pure_eq_ok_iff] at h
        obtain ⟨m₁, h₁, l, _, m₂, hl, ⟨hmem, rfl⟩, m₃, h₃, rfl, rfl⟩ := h
        have hword : Spells [.word .otherwise] (lx :: ts) ts := Spells.of_iff.2 ⟨lx, rfl, ht⟩
        exact .inr ⟨.otherwise l, ((hword.append h₁).append hl).append h₃, hmem, rfl⟩
      | _ =>
        simp only [ht] at h
        exact roundOf_of_case h
    | _ =>
      simp only [ht] at h
      exact roundOf_of_case h

lemma switchCase_of_case {c : Tree.Case} {mid : List Lexeme} (hc : Spells c.leaves ts mid) (hvalid : c.Valid s)
    (h : afterCase (cases.push (c.denote s)) mid = .ok (r, rest)) : switchCase s cases ts = .ok (r, rest) := by
  have hcase := case_eq_ok_iff (k := fun c b => afterCase (cases.push (c, b))).2 ⟨c, mid, hc, hvalid, h⟩
  obtain ⟨lx, ts', rfl, hl, -⟩ := hc
  unfold switchCase
  rw [peek_bind_cons]
  obtain ⟨value, target⟩ := c
  cases value <;> simp only [hl.1, Leaf.of, Tree.Constant.token] <;> exact hcase

lemma switchCase_eq_ok_iff : switchCase s cases ts = .ok (r, rest) ↔ RoundOf s cases ts rest r := by
  refine ⟨roundOf_of_switchCase, ?_⟩
  rintro (⟨c, h, hvalid, rfl⟩ | ⟨e, h, hvalid, rfl⟩)
  · obtain ⟨mid, hc, hcomma⟩ := Spells.append_iff.1 h
    exact switchCase_of_case hc hvalid (afterCase_eq_ok_iff.2 (.inl ⟨hcomma, rfl⟩))
  · cases e with
    | nothing =>
      obtain ⟨lx, rfl, ht⟩ := Spells.of_iff.1 h
      unfold switchCase
      rw [peek_bind_cons]
      simp only [ht, skip_bind_cons]
      rfl
    | last c =>
      obtain ⟨mid, hc, hclose⟩ := Spells.append_iff.1 h
      exact switchCase_of_case hc hvalid (afterCase_eq_ok_iff.2 (.inr ⟨hclose, rfl⟩))
    | otherwise l =>
      simp only [Tree.Ending.leaves, Spells.cons_cons_iff] at h
      obtain ⟨m₁, hword, m₂, h₁, m₃, hl, h₃⟩ := h
      obtain ⟨lx, rfl, ht⟩ := Spells.of_iff.1 hword
      unfold switchCase
      rw [peek_bind_cons]
      simp only [ht, skip_bind_cons, expectMark_bind_eq_ok_iff, target_reads.bind_eq_ok_iff,
        pure_eq_ok_iff]
      exact ⟨m₂, h₁, l, _, m₃, hl, ⟨hvalid, rfl⟩, rest, h₃, rfl, rfl⟩

end Rounds

lemma switchCases_eq_ok_iff {cases : Cases} {otherwise : Option BlockId} :
    loop (switchCase s) #[] ts = .ok ((cases, otherwise), rest) ↔
      ∃ (l : List Tree.Case) (e : Tree.Ending),
        Spells (l.flatMap (·.leaves ++ [.mark .comma]) ++ e.leaves) ts rest ∧
        ((∀ c ∈ l, c.Valid s) ∧ e.Valid s) ∧
        (l ++ e.case?.toList).map (·.denote s) = cases.toList ∧ e.otherwise?.map s.block = otherwise := by
  have hne : ∀ c : Tree.Case, c.leaves ++ [Leaf.mark .comma] ≠ [] := fun c => by simp
  have hround : ∀ (cases : Cases) ts cases' rest,
      switchCase s cases ts = .ok (.inl cases', rest) ↔
      ∃ c : Tree.Case, Spells (c.leaves ++ [.mark .comma]) ts rest ∧
        (c.Valid s ∧ cases.push (c.denote s) = cases') := by
    intro cases ts cases' rest
    rw [switchCase_eq_ok_iff]
    constructor
    · rintro (⟨c, h, hvalid, he⟩ | ⟨e, h, hvalid, he⟩) <;> cases he
      exact ⟨c, h, hvalid, rfl⟩
    · rintro ⟨c, h, hvalid, rfl⟩
      exact .inl ⟨c, h, hvalid, rfl⟩
  rw [loop_eq_ok_iff hne hround]
  simp only [follows_iff_foldl, switchCase_eq_ok_iff]
  constructor
  · rintro ⟨l, _, mid, hl, ⟨hvalid, rfl⟩, ⟨c, -, -, hc⟩ | ⟨e, he, hve, hend⟩⟩
    · cases hc
    · cases hend
      refine ⟨l, e, hl.append he, ⟨hvalid, hve⟩, ?_, rfl⟩
      rw [toList_foldl_push, toList_foldl_push, List.map_append]
      rfl
  · rintro ⟨l, e, h, ⟨hvalid, hve⟩, hcases, rfl⟩
    obtain ⟨mid, hl, he⟩ := Spells.append_iff.1 h
    refine ⟨l, _, mid, hl, ⟨hvalid, rfl⟩, .inr ⟨e, he, hve, ?_⟩⟩
    congr 2
    rw [← Array.toList_inj, toList_foldl_push, toList_foldl_push, ← hcases, List.map_append]
    rfl

lemma switchTransfer_denote (p : Place) (cs : List Tree.Case) (otherwise : Option BlockId) :
    Draft.switchTransfer p (cs.map (·.denote s)) otherwise =
      .switch p (cs.map fun c => c.value.denote) (cs.map (fun c => s.block c.target) ++ otherwise.toList) := by
  rw [Draft.switchTransfer, List.map_map, List.map_map]
  rfl

lemma switch_eq_ok_iff {lx : Lexeme} {r : Transfer} :
    switch s (lx :: ts) = .ok (r, rest) ↔ ∃ (p : Place) (cases : List Tree.Case) (e : Tree.Ending),
      Spells ([.mark .parenOpen, .of p.token, .mark .parenClose, .mark .arrow, .mark .squareOpen] ++
        cases.flatMap (·.leaves ++ [.mark .comma]) ++ e.leaves ++ [.mark .semi]) ts rest ∧
      ((∀ c ∈ cases, c.Valid s) ∧ e.Valid s) ∧
      .switch p ((cases ++ e.case?.toList).map fun c => c.value.denote)
        ((cases ++ e.case?.toList).map (fun c => s.block c.target) ++ (e.otherwise?.map s.block).toList) = r := by
  unfold switch endOfTerminator
  simp only [skip_bind_cons, expectMark_bind_eq_ok_iff, place_reads.bind_eq_ok_iff,
    bind_eq_ok_iff (p := loop (switchCase s) #[]), pure_eq_ok_iff, Prod.exists, switchCases_eq_ok_iff]
  constructor
  · rintro ⟨m₁, h₁, p, _, m₂, hp, rfl, m₃, h₃, m₄, h₄, m₅, h₅, cases, otherwise, m₆,
      ⟨l, e, hl, hvalid, hcases, rfl⟩, m₇, h₇, rfl, rfl⟩
    obtain ⟨m, hl, he⟩ := Spells.append_iff.1 hl
    refine ⟨p, l, e, (((((h₁.append hp).append h₃).append h₄).append h₅).append hl |>.append he).append h₇,
      hvalid, ?_⟩
    rw [← hcases, switchTransfer_denote]
  · rintro ⟨p, l, e, h, hvalid, rfl⟩
    simp only [Spells.append_iff (l := e.leaves), Spells.append_iff (l := [.mark .semi]),
      Spells.append_iff (l := l.flatMap _), Spells.cons_cons_iff] at h
    obtain ⟨m₇, ⟨m₆, ⟨m₅, ⟨m₁, h₁, m₂, hp, m₃, h₃, m₄, h₄, h₅⟩, hl⟩, he⟩, h₇⟩ := h
    exact ⟨m₁, h₁, p, p, m₂, hp, rfl, m₃, h₃, m₄, h₄, m₅, h₅,
      ((l ++ e.case?.toList).map (·.denote s)).toArray, e.otherwise?.map s.block, m₇,
      ⟨l, e, hl.append he, hvalid, rfl, rfl⟩, rest, h₇, switchTransfer_denote .., rfl⟩

end Parser

end BlockIR
