import BlockIR.Proofs.Grammar.Meaning

/-!
# Readers and leaves

What it is for a reader to accept exactly the leaves of some trees, and that the readers of tokens and of
repeated parts do.
-/

namespace BlockIR

namespace Spells

variable {l l' : Leaf} {ls ls' : List Leaf} {ts mid rest : List Lexeme}

lemma append_iff {k l : List Leaf} :
    Spells (k ++ l) ts rest ↔ ∃ mid, Spells k ts mid ∧ Spells l mid rest := by
  induction k generalizing ts with
  | nil =>
    constructor
    · intro h
      exact ⟨ts, rfl, h⟩
    · rintro ⟨mid, rfl, h⟩
      exact h
  | cons _ k ih =>
    constructor
    · rintro ⟨lx, ts', rfl, hl, h⟩
      obtain ⟨mid, h₁, h₂⟩ := ih.1 h
      exact ⟨mid, ⟨lx, ts', rfl, hl, h₁⟩, h₂⟩
    · rintro ⟨mid, ⟨lx, ts', rfl, hl, h₁⟩, h₂⟩
      exact ⟨lx, ts', rfl, hl, ih.2 ⟨mid, h₁, h₂⟩⟩

lemma append (h : Spells ls ts mid) (h' : Spells ls' mid rest) : Spells (ls ++ ls') ts rest :=
  append_iff.2 ⟨mid, h, h'⟩

lemma cons_cons_iff :
    Spells (l :: l' :: ls) ts rest ↔ ∃ mid, Spells [l] ts mid ∧ Spells (l' :: ls) mid rest :=
  append_iff (k := [l])

lemma of_iff {t : Token} : Spells [.of t] ts rest ↔ ∃ lx, ts = lx :: rest ∧ lx.token = t := by
  constructor
  · rintro ⟨lx, ts', rfl, hl, rfl⟩
    exact ⟨lx, rfl, hl.1⟩
  · rintro ⟨lx, rfl, ht⟩
    refine ⟨lx, rest, rfl, ⟨ht, fun p hp => ?_⟩, rfl⟩
    cases hp

lemma of_cons_cons_iff {t : Token} {lx : Lexeme} :
    Spells (.of t :: ls) (lx :: ts) rest ↔ lx.token = t ∧ Spells ls ts rest := by
  constructor
  · rintro ⟨lx', ts', h, hl, hls⟩
    cases h
    exact ⟨hl.1, hls⟩
  · rintro ⟨rfl, h⟩
    refine ⟨lx, ts, rfl, ⟨rfl, fun p hp => ?_⟩, h⟩
    cases hp

lemma length_eq (h : Spells ls ts rest) : ts.length = ls.length + rest.length := by
  induction ls generalizing ts with
  | nil =>
    cases h
    exact (Nat.zero_add _).symm
  | cons l ls ih =>
    obtain ⟨lx, ts', rfl, -, h⟩ := h
    rw [List.length_cons, List.length_cons, ih h]
    omega

lemma placed_iff {p : Pos} (h : ∃ t ls', ls = .of t :: ls') :
    Spells (Leaf.placed p ls) ts rest ↔ Spells ls ts rest ∧ ∃ lx ts', ts = lx :: ts' ∧ lx.pos = p := by
  obtain ⟨t, ls, rfl⟩ := h
  constructor
  · rintro ⟨lx, ts', rfl, hl, h⟩
    exact ⟨of_cons_cons_iff.2 ⟨hl.1, h⟩, lx, ts', rfl, hl.2 p rfl⟩
  · rintro ⟨h, lx, ts', rfl, rfl⟩
    obtain ⟨ht, h⟩ := of_cons_cons_iff.1 h
    refine ⟨lx, ts', rfl, ⟨ht, fun q hq => ?_⟩, h⟩
    exact Option.some.inj hq

end Spells

namespace Parser

variable {α β σ τ : Type}

/-- A reader takes the leaves of trees, and gives what is described of them. -/
def Reads (p : Parser α) (leaves : τ → List Leaf) (D : τ → α → Prop) : Prop :=
  ∀ ts x rest, p ts = .ok (x, rest) ↔ ∃ t, Spells (leaves t) ts rest ∧ D t x

section Steps

variable {p : Parser α} {k : α → Parser β} {x : α} {y : β} {ts rest : List Lexeme} {lx : Lexeme}
  {what : String}

lemma bind_eq_ok_iff :
    (p >>= k) ts = .ok (y, rest) ↔ ∃ x mid, p ts = .ok (x, mid) ∧ k x mid = .ok (y, rest) := by
  show (p ts >>= fun r => k r.1 r.2) = .ok (y, rest) ↔ _
  cases h : p ts with
  | error e =>
    constructor
    · intro h'
      cases h'
    · rintro ⟨x, mid, h', -⟩
      cases h'
  | ok r =>
    constructor
    · intro h'
      exact ⟨r.1, r.2, rfl, h'⟩
    · rintro ⟨x, mid, h', hk⟩
      cases h'
      exact hk

lemma pure_eq_ok_iff {y' : α} : (pure x : Parser α) ts = .ok (y', rest) ↔ x = y' ∧ ts = rest := by
  show Except.ok (x, ts) = Except.ok (y', rest) ↔ _
  rw [Except.ok.injEq, Prod.mk.injEq]

lemma reject_eq_ok_iff {c : Complaint} : (reject lx c : Parser α) ts = .ok (x, rest) ↔ False := by
  constructor
  · intro h
    cases h
  · exact False.elim

lemma discard_eq_ok_iff {u : Unit} :
    (discard p) ts = .ok (u, rest) ↔ ∃ x, p ts = .ok (x, rest) := by
  show (p ts >>= fun r => pure ((), r.2)) = .ok (u, rest) ↔ _
  cases h : p ts with
  | error e =>
    constructor
    · intro h'
      cases h'
    · rintro ⟨x, h'⟩
      cases h'
  | ok r =>
    constructor
    · intro h'
      cases h'
      exact ⟨r.1, rfl⟩
    · rintro ⟨x, h'⟩
      cases h'
      rfl

lemma drafted_eq_ok_iff {e : Except DraftFault α} :
    drafted lx e ts = .ok (x, rest) ↔ e = .ok x ∧ ts = rest := by
  cases e with
  | error f =>
    constructor
    · intro h
      cases h
    · rintro ⟨h, -⟩
      cases h
  | ok y => rw [drafted, pure_eq_ok_iff, Except.ok.injEq]

lemma front?_bind (k : Option Token → Parser β) : (front? >>= k) ts = k (ts.head?.map (·.token)) ts := rfl

lemma nextIs_bind (t : Token) (k : Bool → Parser β) :
    (nextIs t >>= k) ts = k (decide (ts.head?.map (·.token) = some t)) ts := rfl

lemma peek_bind_cons (k : Lexeme → Parser β) : (peek what >>= k) (lx :: ts) = k lx (lx :: ts) := rfl

lemma next_bind_cons (k : Lexeme → Parser β) : (next what >>= k) (lx :: ts) = k lx ts := rfl

lemma skip_bind_cons (k : Unit → Parser β) : (skip >>= k) (lx :: ts) = k () ts := rfl

lemma expect_eq_ok_iff {t : Token} :
    expect t what ts = .ok (lx, rest) ↔ ts = lx :: rest ∧ lx.token = t := by
  cases ts with
  | nil =>
    constructor
    · intro h
      cases h
    · rintro ⟨h, -⟩
      cases h
  | cons lx' ts =>
    unfold expect
    rw [next_bind_cons]
    split_ifs with ht
    · rw [pure_eq_ok_iff, List.cons.injEq]
      constructor
      · rintro ⟨rfl, rfl⟩
        exact ⟨⟨rfl, rfl⟩, ht⟩
      · rintro ⟨⟨rfl, rfl⟩, -⟩
        exact ⟨rfl, rfl⟩
    · rw [reject_eq_ok_iff, List.cons.injEq]
      constructor
      · exact False.elim
      · rintro ⟨⟨rfl, rfl⟩, ht'⟩
        exact ht ht'

lemma expectMark_eq_ok_iff {m : Mark} :
    expectMark m what ts = .ok (lx, rest) ↔ ts = lx :: rest ∧ lx.token = .mark m := expect_eq_ok_iff

lemma discard_expect_eq_ok_iff {t : Token} {u : Unit} :
    (discard (expect t what)) ts = .ok (u, rest) ↔ Spells [.of t] ts rest := by
  rw [discard_eq_ok_iff, Spells.of_iff]
  simp only [expect_eq_ok_iff]

lemma expect_bind_eq_ok_iff {t : Token} {k : Unit → Parser β} :
    (discard (expect t what) >>= k) ts = .ok (y, rest) ↔
      ∃ mid, Spells [.of t] ts mid ∧ k () mid = .ok (y, rest) := by
  rw [bind_eq_ok_iff]
  constructor
  · rintro ⟨⟨⟩, mid, h, hk⟩
    exact ⟨mid, discard_expect_eq_ok_iff.1 h, hk⟩
  · rintro ⟨mid, h, hk⟩
    exact ⟨(), mid, discard_expect_eq_ok_iff.2 h, hk⟩

lemma expectMark_bind_eq_ok_iff {m : Mark} {k : Unit → Parser β} :
    (discard (expectMark m what) >>= k) ts = .ok (y, rest) ↔
      ∃ mid, Spells [.mark m] ts mid ∧ k () mid = .ok (y, rest) := expect_bind_eq_ok_iff

lemma Reads.bind_eq_ok_iff {leaves : τ → List Leaf} {D : τ → α → Prop} (h : p.Reads leaves D) :
    (p >>= k) ts = .ok (y, rest) ↔
      ∃ t x mid, Spells (leaves t) ts mid ∧ D t x ∧ k x mid = .ok (y, rest) := by
  rw [Parser.bind_eq_ok_iff]
  constructor
  · rintro ⟨x, mid, hp, hk⟩
    obtain ⟨t, ht, hD⟩ := (h ts x mid).1 hp
    exact ⟨t, x, mid, ht, hD, hk⟩
  · rintro ⟨t, x, mid, ht, hD, hk⟩
    exact ⟨x, mid, (h ts x mid).2 ⟨t, ht, hD⟩, hk⟩

lemma ident_eq_ok_iff {name : String} :
    ident what ts = .ok ((name, lx), rest) ↔ ts = lx :: rest ∧ lx.token = .ident name := by
  cases ts with
  | nil =>
    constructor
    · intro h
      cases h
    · rintro ⟨h, -⟩
      cases h
  | cons lx' ts =>
    unfold ident
    rw [next_bind_cons, List.cons.injEq]
    constructor
    · intro h
      cases ht : lx'.token with
      | ident name' =>
        simp only [ht] at h
        cases h
        exact ⟨⟨rfl, rfl⟩, ht⟩
      | _ =>
        simp only [ht] at h
        cases h
    · rintro ⟨⟨rfl, rfl⟩, ht⟩
      simp only [ht]
      rfl

end Steps

/-- A state goes through the elements of a list, each of which makes one state follow another. -/
def Follows (F : σ → τ → σ → Prop) : σ → List τ → σ → Prop
  | s, [], s' => s = s'
  | s, t :: l, s' => ∃ s₁, F s t s₁ ∧ Follows F s₁ l s'

lemma follows_append_iff {F : σ → τ → σ → Prop} {s s' : σ} {l l' : List τ} :
    Follows F s (l ++ l') s' ↔ ∃ s₁, Follows F s l s₁ ∧ Follows F s₁ l' s' := by
  induction l generalizing s with
  | nil =>
    constructor
    · intro h
      exact ⟨s, rfl, h⟩
    · rintro ⟨s₁, rfl, h⟩
      exact h
  | cons t l ih =>
    constructor
    · rintro ⟨s₁, ht, h⟩
      obtain ⟨s₂, hl, hl'⟩ := ih.1 h
      exact ⟨s₂, ⟨s₁, ht, hl⟩, hl'⟩
    · rintro ⟨s₂, ⟨s₁, ht, hl⟩, hl'⟩
      exact ⟨s₁, ht, ih.2 ⟨s₂, hl, hl'⟩⟩

lemma follows_iff_foldl {V : τ → Prop} {f : σ → τ → σ} {s s' : σ} {l : List τ} :
    Follows (fun s t s' => V t ∧ f s t = s') s l s' ↔ (∀ t ∈ l, V t) ∧ l.foldl f s = s' := by
  induction l generalizing s with
  | nil =>
    constructor
    · rintro rfl
      exact ⟨List.forall_mem_nil _, rfl⟩
    · rintro ⟨-, rfl⟩
      rfl
  | cons t l ih =>
    rw [List.forall_mem_cons, List.foldl_cons]
    constructor
    · rintro ⟨s₁, ⟨ht, rfl⟩, h⟩
      obtain ⟨hl, rfl⟩ := ih.1 h
      exact ⟨⟨ht, hl⟩, rfl⟩
    · rintro ⟨⟨ht, hl⟩, rfl⟩
      exact ⟨f s t, ⟨ht, rfl⟩, ih.2 ⟨hl, rfl⟩⟩

lemma toList_foldl_push (f : τ → α) (l : List τ) (xs : Array α) :
    (l.foldl (fun xs t => xs.push (f t)) xs).toList = xs.toList ++ l.map f := by
  induction l generalizing xs with
  | nil => rw [List.foldl_nil, List.map_nil, List.append_nil]
  | cons t l ih =>
    rw [List.foldl_cons, ih, Array.toList_push, List.append_assoc]
    rfl

lemma follows_push_iff {V : τ → Prop} {f : τ → α} {l : List τ} {xs : Array α} :
    Follows (fun xs t xs' => V t ∧ xs.push (f t) = xs') #[] l xs ↔
      (∀ t ∈ l, V t) ∧ l.map f = xs.toList := by
  rw [follows_iff_foldl, ← Array.toList_inj, toList_foldl_push]
  rfl

lemma follows_iff_foldlM {ε : Type} {V : τ → Prop} {f : σ → τ → Except ε σ} {s s' : σ} {l : List τ} :
    Follows (fun s t s' => V t ∧ f s t = .ok s') s l s' ↔ (∀ t ∈ l, V t) ∧ l.foldlM f s = .ok s' := by
  induction l generalizing s with
  | nil =>
    rw [List.foldlM_nil]
    constructor
    · rintro rfl
      exact ⟨List.forall_mem_nil _, rfl⟩
    · rintro ⟨-, h⟩
      exact Except.ok.inj h
  | cons t l ih =>
    rw [List.forall_mem_cons, List.foldlM_cons]
    constructor
    · rintro ⟨s₁, ⟨ht, hf⟩, h⟩
      obtain ⟨hl, hfold⟩ := ih.1 h
      rw [hf]
      exact ⟨⟨ht, hl⟩, hfold⟩
    · rintro ⟨⟨ht, hl⟩, h⟩
      cases hf : f s t with
      | error e =>
        rw [hf] at h
        cases h
      | ok s₁ =>
        rw [hf] at h
        exact ⟨s₁, ⟨ht, hf⟩, ih.2 ⟨hl, h⟩⟩

section Loops

variable {leaves : τ → List Leaf} {F : σ → τ → σ → Prop} {s s' : σ} {x : α} {ts rest : List Lexeme}

lemma rounds_eq_ok_iff {round : σ → Parser (σ ⊕ α)} (hne : ∀ t, leaves t ≠ [])
    (hround : ∀ s ts s' ts', round s ts = .ok (.inl s', ts') ↔
      ∃ t, Spells (leaves t) ts ts' ∧ F s t s')
    {fuel : Nat} (hfuel : ts.length < fuel) :
    rounds round fuel s ts = .ok (x, rest) ↔ ∃ l s' mid,
      Spells (l.flatMap leaves) ts mid ∧ Follows F s l s' ∧ round s' mid = .ok (.inr x, rest) := by
  induction fuel generalizing s ts with
  | zero => exact absurd hfuel (Nat.not_lt_zero _)
  | succ fuel ih =>
    have hshorter : ∀ {t ts'}, Spells (leaves t) ts ts' → ts'.length < fuel := by
      intro t ts' h
      have hlen := h.length_eq
      have hpos := List.length_pos_iff.2 (hne t)
      omega
    unfold rounds
    constructor
    · intro h
      rcases hr : round s ts with e | ⟨s₁ | x₁, ts₁⟩
      · rw [hr] at h
        cases h
      · rw [hr] at h
        obtain ⟨t, ht, hF⟩ := (hround s ts s₁ ts₁).1 hr
        obtain ⟨l, s', mid, hl, hfollows, hend⟩ := (ih (hshorter ht)).1 h
        exact ⟨t :: l, s', mid, ht.append hl, ⟨s₁, hF, hfollows⟩, hend⟩
      · rw [hr] at h
        cases h
        exact ⟨[], s, ts, rfl, rfl, hr⟩
    · rintro ⟨l, s', mid, hl, hfollows, hend⟩
      cases l with
      | nil =>
        cases hl
        cases hfollows
        rw [hend]
      | cons t l =>
        obtain ⟨ts₁, ht, hl⟩ := Spells.append_iff.1 hl
        obtain ⟨s₁, hF, hfollows⟩ := hfollows
        rw [(hround s ts s₁ ts₁).2 ⟨t, ht, hF⟩]
        exact (ih (hshorter ht)).2 ⟨l, s', mid, hl, hfollows, hend⟩

/-- A loop reads the leaves of some trees one after another, until a round ends it. -/
lemma loop_eq_ok_iff {round : σ → Parser (σ ⊕ α)} (hne : ∀ t, leaves t ≠ [])
    (hround : ∀ s ts s' ts', round s ts = .ok (.inl s', ts') ↔
      ∃ t, Spells (leaves t) ts ts' ∧ F s t s') :
    loop round s ts = .ok (x, rest) ↔ ∃ l s' mid,
      Spells (l.flatMap leaves) ts mid ∧ Follows F s l s' ∧ round s' mid = .ok (.inr x, rest) :=
  rounds_eq_ok_iff hne hround (Nat.lt_succ_self _)

lemma loop_eq_ok_iff_of_stops {round : σ → Parser (σ ⊕ σ)} (leaves : τ → List Leaf)
    (Stops : List Lexeme → Prop) (hne : ∀ t, leaves t ≠ [])
    (hround : ∀ s ts r rest, round s ts = .ok (r, rest) ↔
      (∃ t s', Spells (leaves t) ts rest ∧ F s t s' ∧ .inl s' = r) ∨ (Stops ts ∧ ts = rest ∧ .inr s = r)) :
    loop round s ts = .ok (s', rest) ↔
      ∃ l, Spells (l.flatMap leaves) ts rest ∧ Follows F s l s' ∧ Stops rest := by
  have hmore : ∀ s ts s' ts', round s ts = .ok (.inl s', ts') ↔
      ∃ t, Spells (leaves t) ts ts' ∧ F s t s' := by
    intro s ts s' ts'
    rw [hround]
    constructor
    · rintro (⟨t, s₁, h, hF, he⟩ | ⟨-, -, he⟩) <;> cases he
      exact ⟨t, h, hF⟩
    · rintro ⟨t, h, hF⟩
      exact .inl ⟨t, s', h, hF, rfl⟩
  rw [loop_eq_ok_iff hne hmore]
  constructor
  · rintro ⟨l, s₁, mid, hl, hfollows, hend⟩
    rcases (hround _ _ _ _).1 hend with ⟨t, s₂, -, -, he⟩ | ⟨hstops, rfl, he⟩ <;> cases he
    exact ⟨l, hl, hfollows, hstops⟩
  · rintro ⟨l, hl, hfollows, hstops⟩
    exact ⟨l, s', rest, hl, hfollows, (hround _ _ _ _).2 (.inr ⟨hstops, rfl, rfl⟩)⟩

/-- What decides whether there is a further item. -/
def separator (s : σ) : Parser (σ ⊕ σ) := do
  let lx ← next "`,` or `)`"
  match lx.token with
  | .mark .comma => return .inl s
  | .mark .parenClose => return .inr s
  | _ => reject lx (.expected "`,` or `)`")

lemma separator_eq_ok_iff {r : σ ⊕ σ} :
    separator s ts = .ok (r, rest) ↔
      (Spells [.mark .comma] ts rest ∧ r = .inl s) ∨ (Spells [.mark .parenClose] ts rest ∧ r = .inr s) := by
  simp only [Leaf.mark, Spells.of_iff]
  cases ts with
  | nil =>
    constructor
    · intro h
      cases h
    · rintro (⟨⟨lx, h, -⟩, -⟩ | ⟨⟨lx, h, -⟩, -⟩) <;> cases h
  | cons lx ts =>
    unfold separator
    rw [next_bind_cons]
    constructor
    · intro h
      cases ht : lx.token with
      | mark m =>
        simp only [ht] at h
        cases m with
        | comma =>
          cases h
          exact .inl ⟨⟨lx, rfl, ht⟩, rfl⟩
        | parenClose =>
          cases h
          exact .inr ⟨⟨lx, rfl, ht⟩, rfl⟩
        | _ => cases h
      | _ =>
        simp only [ht] at h
        cases h
    · rintro (⟨⟨lx', h, ht⟩, rfl⟩ | ⟨⟨lx', h, ht⟩, rfl⟩) <;> cases h <;> simp only [ht] <;> rfl

lemma commas_concat (l : List τ) (t : τ) :
    Leaf.commas ((l ++ [t]).map leaves) = l.flatMap (leaves · ++ [.mark .comma]) ++ leaves t := by
  induction l with
  | nil => rfl
  | cons u l ih =>
    have hcons : ∀ ls lss, lss ≠ [] → Leaf.commas (ls :: lss) = ls ++ .mark .comma :: Leaf.commas lss := by
      intro ls lss h
      cases lss with
      | nil => exact absurd rfl h
      | cons ls' lss => rfl
    rw [List.cons_append, List.map_cons, hcons _ _ (by simp), ih, List.flatMap_cons]
    simp only [List.append_assoc, List.cons_append, List.nil_append]

lemma commaItems_eq_ok_iff {item : σ → Parser σ} (hitem : ∀ s, (item s).Reads leaves (F s)) :
    commaItems item s ts = .ok (s', rest) ↔ ∃ l, l ≠ [] ∧
      Spells (Leaf.commas (l.map leaves) ++ [.mark .parenClose]) ts rest ∧ Follows F s l s' := by
  have hround : ∀ (s : σ) ts r ts', (item s >>= separator) ts = .ok (r, ts') ↔
      (∃ t s', Spells (leaves t ++ [.mark .comma]) ts ts' ∧ F s t s' ∧ r = .inl s') ∨
      (∃ t s', Spells (leaves t ++ [.mark .parenClose]) ts ts' ∧ F s t s' ∧ r = .inr s') := by
    intro s ts r ts'
    rw [bind_eq_ok_iff]
    constructor
    · rintro ⟨s', mid, h, hsep⟩
      obtain ⟨t, ht, hF⟩ := (hitem s ts s' mid).1 h
      rcases separator_eq_ok_iff.1 hsep with ⟨hmark, rfl⟩ | ⟨hmark, rfl⟩
      · exact .inl ⟨t, s', ht.append hmark, hF, rfl⟩
      · exact .inr ⟨t, s', ht.append hmark, hF, rfl⟩
    · rintro (⟨t, s', h, hF, rfl⟩ | ⟨t, s', h, hF, rfl⟩) <;>
        obtain ⟨mid, ht, hmark⟩ := Spells.append_iff.1 h
      · exact ⟨s', mid, (hitem s ts s' mid).2 ⟨t, ht, hF⟩, separator_eq_ok_iff.2 (.inl ⟨hmark, rfl⟩)⟩
      · exact ⟨s', mid, (hitem s ts s' mid).2 ⟨t, ht, hF⟩, separator_eq_ok_iff.2 (.inr ⟨hmark, rfl⟩)⟩
  have hmore : ∀ (s : σ) ts s' ts', (item s >>= separator) ts = .ok (.inl s', ts') ↔
      ∃ t, Spells (leaves t ++ [.mark .comma]) ts ts' ∧ F s t s' := by
    intro s ts s' ts'
    rw [hround]
    constructor
    · rintro (⟨t, s₁, h, hF, he⟩ | ⟨t, s₁, h, hF, he⟩) <;> cases he
      exact ⟨t, h, hF⟩
    · rintro ⟨t, h, hF⟩
      exact .inl ⟨t, s', h, hF, rfl⟩
  have hne : ∀ t, leaves t ++ [Leaf.mark .comma] ≠ [] := fun t => by simp
  show loop (fun s => item s >>= separator) s ts = .ok (s', rest) ↔ _
  rw [loop_eq_ok_iff hne hmore]
  constructor
  · rintro ⟨l, s₁, mid, hl, hfollows, hend⟩
    rcases (hround _ _ _ _).1 hend with ⟨t, s₂, ht, hF, he⟩ | ⟨t, s₂, ht, hF, he⟩ <;> cases he
    refine ⟨l ++ [t], by simp, ?_, follows_append_iff.2 ⟨s₁, hfollows, s', hF, rfl⟩⟩
    rw [commas_concat, List.append_assoc]
    exact hl.append ht
  · rintro ⟨l, hl, h, hfollows⟩
    obtain ⟨l, t, rfl⟩ : ∃ l' t, l = l' ++ [t] :=
      ⟨l.dropLast, l.getLast hl, (List.dropLast_concat_getLast hl).symm⟩
    rw [commas_concat, List.append_assoc] at h
    obtain ⟨mid, hl, ht⟩ := Spells.append_iff.1 h
    obtain ⟨s₁, hl', s₂, hF, rfl⟩ := follows_append_iff.1 hfollows
    exact ⟨l, s₁, mid, hl, hl', (hround _ _ _ _).2 (.inr ⟨t, s₂, ht, hF, rfl⟩)⟩

lemma parenthesized_eq_ok_iff {item : σ → Parser σ} (hitem : ∀ s, (item s).Reads leaves (F s))
    (hhead : ∀ t, ∃ l ls, leaves t = l :: ls ∧ l.token ≠ .mark .parenClose) :
    parenthesized item s ts = .ok (s', rest) ↔ ∃ l,
      Spells (Leaf.commas (l.map leaves) ++ [.mark .parenClose]) ts rest ∧ Follows F s l s' := by
  unfold parenthesized
  rw [nextIs_bind]
  have hclosed : ∀ {l : List τ}, l ≠ [] →
      Spells (Leaf.commas (l.map leaves) ++ [.mark .parenClose]) ts rest →
      ts.head?.map (·.token) ≠ some (.mark .parenClose) := by
    intro l hl h
    cases l with
    | nil => exact absurd rfl hl
    | cons t l =>
      obtain ⟨leaf, ls, ht, htoken⟩ := hhead t
      have hcommas : ∃ ls', Leaf.commas ((t :: l).map leaves) = leaf :: ls' := by
        cases l with
        | nil => exact ⟨ls, ht⟩
        | cons u l =>
          refine ⟨ls ++ .mark .comma :: Leaf.commas ((u :: l).map leaves), ?_⟩
          show leaves t ++ .mark .comma :: Leaf.commas ((u :: l).map leaves) = _
          rw [ht]
          rfl
      obtain ⟨ls', hls⟩ := hcommas
      rw [hls] at h
      obtain ⟨lx, ts', rfl, hfits, -⟩ := h
      intro heq
      exact htoken (hfits.1.symm.trans (Option.some.inj heq))
  by_cases hfront : ts.head?.map (·.token) = some (.mark .parenClose)
  · simp only [hfront, decide_true, if_true]
    cases ts with
    | nil => cases hfront
    | cons lx ts =>
      rw [skip_bind_cons, pure_eq_ok_iff]
      constructor
      · rintro ⟨rfl, rfl⟩
        exact ⟨[], Spells.of_iff.2 ⟨lx, rfl, Option.some.inj hfront⟩, rfl⟩
      · rintro ⟨l, h, hfollows⟩
        by_cases hl : l = []
        · subst hl
          obtain ⟨lx', hlx, -⟩ := Spells.of_iff.1 h
          cases hlx
          exact ⟨hfollows, rfl⟩
        · exact absurd hfront (hclosed hl h)
  · simp only [hfront, decide_false, Bool.false_eq_true, if_false, commaItems_eq_ok_iff hitem]
    constructor
    · rintro ⟨l, -, h, hfollows⟩
      exact ⟨l, h, hfollows⟩
    · rintro ⟨l, h, hfollows⟩
      refine ⟨l, ?_, h, hfollows⟩
      rintro rfl
      obtain ⟨lx, rfl, ht⟩ := Spells.of_iff.1 h
      exact hfront (congrArg some ht)

end Loops

end Parser

end BlockIR
