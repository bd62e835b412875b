import BlockIR.Proofs.Grammar.Blocks
import BlockIR.Proofs.Grammar.Heads
import BlockIR.Proofs.Grammar.Names

/-!
# Reading bodies accepts their grammar

A body is drafted from its declarations and blocks. If keys can number them, drafting succeeds exactly
with valid declarations and blocks, and gives the body that they denote.
-/

namespace BlockIR

/-- The draft of a body, from these declarations and blocks, is finished and gives the body. -/
def Drafts (functions : List String) (args : Nat) (decls : List Tree.Decl) (blocks : List Tree.Block)
    (b : Body) : Prop :=
  let s : Scope := ⟨functions, blocks.map (·.label)⟩
  s.labels.Nodup ∧ (∀ k ∈ blocks, k.Valid s) ∧ ∃ d d',
    Parser.Follows Draft.Declares (.start (.ofNat args)) decls d ∧
    blocks.foldlM (fun d k => d.fill (s.block k.label) (k.denote s)) (d.createBlocks blocks.length) = .ok d' ∧
    d'.finish = .ok b

namespace Parser

variable {ts rest : List Lexeme}

lemma blocks_eq_ok_iff {s : Scope} {d d' : Draft} :
    loop (blocks s) d ts = .ok (d', rest) ↔
      ∃ l : List Tree.Block, Spells (l.flatMap Tree.Block.leaves) ts rest ∧
      Follows (fun d b d' => (b.Valid s ∧ b.label ∈ s.labels) ∧
        d.fill (s.block b.label) (b.denote s) = .ok d') d l d' ∧
      rest.head?.map (·.token) = some (.mark .curlyClose) := by
  have hround : ∀ (d : Draft) ts r rest, blocks s d ts = .ok (r, rest) ↔
      (∃ t d', Spells (Tree.Block.leaves t) ts rest ∧ ((t.Valid s ∧ t.label ∈ s.labels) ∧
        d.fill (s.block t.label) (t.denote s) = .ok d') ∧ .inl d' = r) ∨
      (ts.head?.map (·.token) = some (.mark .curlyClose) ∧ ts = rest ∧ .inr d = r) := by
    intro d ts r rest
    unfold blocks
    rw [nextIs_bind]
    by_cases hclose : ts.head?.map (·.token) = some (.mark .curlyClose)
    · simp only [hclose, decide_true, if_true, pure_eq_ok_iff]
      constructor
      · rintro ⟨rfl, rfl⟩
        exact .inr ⟨trivial, rfl, rfl⟩
      · rintro (⟨t, _, ⟨lx, ts', rfl, hl, -⟩, -⟩ | ⟨-, rfl, rfl⟩)
        · cases hl.1.symm.trans (Option.some.inj hclose)
        · exact ⟨rfl, rfl⟩
    · simp only [hclose, decide_false, Bool.false_eq_true, if_false, block_reads.bind_eq_ok_iff,
        pure_eq_ok_iff, false_and, or_false]
      constructor
      · rintro ⟨t, d', mid, ht, hd, rfl, rfl⟩
        exact ⟨t, d', ht, hd, rfl⟩
      · rintro ⟨t, d', ht, hd, rfl⟩
        exact ⟨t, d', rest, ht, hd, rfl, rfl⟩
  exact loop_eq_ok_iff_of_stops Tree.Block.leaves
    (fun ts => ts.head?.map (·.token) = some (.mark .curlyClose))
    (fun _ => List.cons_ne_nil _ _) hround

lemma lookAhead_eq_ok_iff {α : Type} {f : List Lexeme → Except Stop α} {x : α} :
    lookAhead f ts = .ok (x, rest) ↔ f ts = .ok x ∧ ts = rest := by
  unfold lookAhead
  cases f ts with
  | error e =>
    constructor
    · intro h
      cases h
    · rintro ⟨h, -⟩
      cases h
  | ok y => rw [Except.ok.injEq, Except.ok.injEq, Prod.mk.injEq]

lemma body_eq_ok_iff {functions : List String} {name : String} {args : Nat} {opening : Lexeme} {b : Body} :
    body functions name args opening ts = .ok (b, rest) ↔
      ∃ (decls : List Tree.Decl) (bs : List Tree.Block), bs ≠ [] ∧
      Spells (decls.flatMap Tree.Decl.leaves ++ bs.flatMap Tree.Block.leaves ++ [.mark .curlyClose]) ts rest ∧
      Drafts functions args decls bs b := by
  unfold body
  simp only [bind_eq_ok_iff (p := loop decl _), decls_eq_ok_iff, bind_eq_ok_iff (p := lookAhead _),
    lookAhead_eq_ok_iff]
  constructor
  · rintro ⟨d, m₁, ⟨decls, hdecls, hd, -⟩, labels, _, ⟨hlabels, rfl⟩, h⟩
    split_ifs at h with hempty
    · cases h
    · simp only [bind_eq_ok_iff (p := loop (blocks _) _), blocks_eq_ok_iff,
        bind_eq_ok_iff (p := expectMark _ _), expectMark_eq_ok_iff] at h
      obtain ⟨d', _, ⟨bs, hbs, hfollows, -⟩, closing, m₃, ⟨rfl, hclose⟩, h⟩ := h
      have hend : Spells [.mark .curlyClose] (closing :: m₃) m₃ := Spells.of_iff.2 ⟨closing, rfl, hclose⟩
      obtain ⟨hnodup, rfl⟩ := (Scope.blockLabels_body .nil (hbs.append hend)).1 hlabels
      cases hfinish : d'.finish with
      | error e =>
        simp only [hfinish] at h
        cases h
      | ok b' =>
        simp only [hfinish, pure_eq_ok_iff] at h
        obtain ⟨rfl, rfl⟩ := h
        obtain ⟨hvalid, hfold⟩ := follows_iff_foldlM.1 hfollows
        refine ⟨decls, bs, ?_, (hdecls.append hbs).append hend, hnodup, fun k hk => (hvalid k hk).1, d, d',
          hd, ?_, hfinish⟩
        · rintro rfl
          exact hempty rfl
        · rw [List.nil_append, List.length_map] at hfold
          exact hfold
  · rintro ⟨decls, bs, hne, h, hnodup, hvalid, d, d', hd, hfold, hfinish⟩
    obtain ⟨m₂, h, hend⟩ := Spells.append_iff.1 h
    obtain ⟨m₁, hdecls, hbs⟩ := Spells.append_iff.1 h
    have hlabels : Scope.blockLabels 0 [] m₁ = .ok (bs.map (·.label)) :=
      (Scope.blockLabels_body .nil (hbs.append hend)).2 ⟨hnodup, rfl⟩
    obtain ⟨closing, rfl, hclose⟩ := Spells.of_iff.1 hend
    have hfront : m₁.head?.map (·.token) ≠ some (.keyword .let_) := by
      cases bs with
      | nil => exact absurd rfl hne
      | cons k bs =>
        obtain ⟨lx, ts', rfl, hl, -⟩ := hbs
        intro h
        cases hl.1.symm.trans (Option.some.inj h)
    refine ⟨d, m₁, ⟨decls, hdecls, hd, hfront⟩, _, m₁, ⟨hlabels, rfl⟩, ?_⟩
    have hempty : (bs.map (·.label)).isEmpty = false := by
      cases bs with
      | nil => exact absurd rfl hne
      | cons k bs => rfl
    simp only [hempty, Bool.false_eq_true, if_false, bind_eq_ok_iff (p := loop (blocks _) _),
      blocks_eq_ok_iff, bind_eq_ok_iff (p := expectMark _ _), expectMark_eq_ok_iff, List.length_map]
    refine ⟨d', closing :: rest, ⟨bs, hbs, follows_iff_foldlM.2 ⟨fun k hk => ⟨hvalid k hk, ?_⟩, hfold⟩,
      congrArg some hclose⟩, closing, rest, ⟨rfl, hclose⟩, ?_⟩
    · exact List.mem_map.2 ⟨k, hk, rfl⟩
    · simp only [hfinish]
      rfl

lemma add_one_add_ofNat (i : UInt32) (n : Nat) : i + 1 + .ofNat n = i + .ofNat (n + 1) := by
  rw [UInt32.ofNat_add, UInt32.add_assoc, UInt32.add_comm 1]
  rfl

lemma follows_declares_iff {d d' : Draft} {l : List Tree.Decl}
    (hvars : d.vars.toNat + (l.filterMap Tree.Decl.var?).length < UInt32.size)
    (htemps : d.temps.toNat + (l.filterMap Tree.Decl.temp?).length < UInt32.size) :
    Follows Draft.Declares d l d' ↔
      (l.filterMap Tree.Decl.var?).map UInt32.toNat =
        List.range' d.vars.toNat (l.filterMap Tree.Decl.var?).length ∧
      (l.filterMap Tree.Decl.temp?).map UInt32.toNat =
        List.range' d.temps.toNat (l.filterMap Tree.Decl.temp?).length ∧
      { d with
        vars := d.vars + .ofNat (l.filterMap Tree.Decl.var?).length
        temps := d.temps + .ofNat (l.filterMap Tree.Decl.temp?).length } = d' := by
  induction l generalizing d with
  | nil =>
    simp only [List.filterMap_nil, List.map_nil, List.length_nil, List.range'_zero, true_and]
    have hzero : ∀ i : UInt32, i + .ofNat 0 = i := fun i => UInt32.add_zero i
    rw [hzero, hzero]
    exact Iff.rfl
  | cons t l ih =>
    cases t with
    | var i =>
      have hcons : (Tree.Decl.var i :: l).filterMap Tree.Decl.var? = i :: l.filterMap Tree.Decl.var? := rfl
      have htemp : (Tree.Decl.var i :: l).filterMap Tree.Decl.temp? = l.filterMap Tree.Decl.temp? := rfl
      rw [hcons, List.length_cons] at hvars
      rw [htemp] at htemps
      have hone := toNat_add_one (i := d.vars) (by omega)
      have hnext := ih (d := d.declareVar.2) (by rw [Draft.declareVar, hone]; omega) htemps
      rw [hcons, htemp, List.map_cons, List.length_cons, List.range'_succ, List.cons.injEq,
        ← add_one_add_ofNat, UInt32.toNat_inj]
      simp only [Draft.declareVar, hone] at hnext
      constructor
      · rintro ⟨_, ⟨hi, rfl⟩, h⟩
        obtain ⟨hv, ht, rfl⟩ := hnext.1 h
        exact ⟨⟨hi, hv⟩, ht, rfl⟩
      · rintro ⟨⟨hi, hv⟩, ht, rfl⟩
        exact ⟨_, ⟨hi, rfl⟩, hnext.2 ⟨hv, ht, rfl⟩⟩
    | temp i =>
      have hvar : (Tree.Decl.temp i :: l).filterMap Tree.Decl.var? = l.filterMap Tree.Decl.var? := rfl
      have hcons : (Tree.Decl.temp i :: l).filterMap Tree.Decl.temp? = i :: l.filterMap Tree.Decl.temp? := rfl
      rw [hvar] at hvars
      rw [hcons, List.length_cons] at htemps
      have hone := toNat_add_one (i := d.temps) (by omega)
      have hnext := ih (d := d.declareTemp.2) hvars (by rw [Draft.declareTemp, hone]; omega)
      rw [hvar, hcons, List.map_cons, List.length_cons, List.range'_succ, List.cons.injEq,
        ← add_one_add_ofNat, UInt32.toNat_inj]
      simp only [Draft.declareTemp, hone] at hnext
      constructor
      · rintro ⟨_, ⟨hi, rfl⟩, h⟩
        obtain ⟨hv, ht, rfl⟩ := hnext.1 h
        exact ⟨hv, ⟨hi, ht⟩, rfl⟩
      · rintro ⟨hv, ⟨hi, ht⟩, rfl⟩
        exact ⟨_, ⟨hi, rfl⟩, hnext.2 ⟨hv, ht, rfl⟩⟩

lemma foldlM_fill_eq {s : Scope} (bs filled : List Tree.Block) {d : Draft}
    (hlabels : s.labels = (filled ++ bs).map (·.label)) (hnodup : s.labels.Nodup)
    (hsize : s.labels.length ≤ UInt32.size)
    (hd : d.blocks = (filled.map (fun k => OpenBlock.ofBlock (k.denote s)) ++
      List.replicate bs.length OpenBlock.empty).toArray) :
    ∃ d', bs.foldlM (fun d k => d.fill (s.block k.label) (k.denote s)) d = .ok d' ∧
      d'.blocks = (((filled ++ bs).map (·.denote s)).map OpenBlock.ofBlock).toArray ∧
      d'.args = d.args ∧ d'.vars = d.vars ∧ d'.temps = d.temps := by
  induction bs generalizing filled d with
  | nil =>
    refine ⟨d, rfl, ?_, rfl, rfl, rfl⟩
    rw [hd, List.append_nil, List.map_map]
    simp only [List.length_nil, List.replicate_zero, List.append_nil]
    rfl
  | cons k bs ih =>
    have hlength : filled.length < s.labels.length := by
      rw [hlabels, List.length_map, List.length_append, List.length_cons]
      omega
    have hidx : s.labels.idxOf k.label = filled.length := by
      have hnew : k.label ∉ filled.map (·.label) := by
        rw [hlabels, List.map_append, List.map_cons] at hnodup
        intro hmem
        exact Scope.not_nodup_of_mem hmem hnodup
      rw [hlabels, List.map_append, List.map_cons, Scope.idxOf_append_cons hnew, List.length_map]
    have hkey : Key.toNat (s.block k.label) = (filled.map fun k => OpenBlock.ofBlock (k.denote s)).length := by
      rw [Scope.block, hidx, Key.toNat_ofNat (by omega), List.length_map]
    have hfill := Draft.fill_eq (d := d) hkey hd (k.denote s)
    obtain ⟨d', hfold, hblocks, hrest⟩ := ih (filled ++ [k]) (d := { d with
      blocks := (filled.map (fun k => OpenBlock.ofBlock (k.denote s)) ++
        .ofBlock (k.denote s) :: List.replicate bs.length OpenBlock.empty).toArray
      current := some (s.block k.label) })
      (by rw [hlabels, List.append_assoc]; rfl)
      (by simp only [List.map_append, List.map_cons, List.map_nil, List.append_assoc, List.cons_append,
        List.nil_append])
    refine ⟨d', ?_, ?_, hrest⟩
    · rw [List.foldlM_cons, hfill]
      exact hfold
    · rw [hblocks, List.append_assoc]
      rfl

/-- A draft is finished exactly by valid declarations and blocks, if keys can number them. -/
lemma drafts_iff {functions : List String} {args : Nat} {decls : List Tree.Decl} {bs : List Tree.Block}
    {b : Body} (hvars : (decls.filterMap Tree.Decl.var?).length < UInt32.size)
    (htemps : (decls.filterMap Tree.Decl.temp?).length < UInt32.size)
    (hblocks : bs.length ≤ UInt32.size) :
    Drafts functions args decls bs b ↔
      Tree.InOrder (decls.filterMap Tree.Decl.var?) ∧ Tree.InOrder (decls.filterMap Tree.Decl.temp?) ∧
      (bs.map (·.label)).Nodup ∧ (∀ k ∈ bs, k.Valid ⟨functions, bs.map (·.label)⟩) ∧
      ⟨.ofNat args, .ofNat (decls.filterMap Tree.Decl.var?).length,
        .ofNat (decls.filterMap Tree.Decl.temp?).length,
        .ofList (bs.map (·.denote ⟨functions, bs.map (·.label)⟩))⟩ = b := by
  set s : Scope := ⟨functions, bs.map (·.label)⟩ with hs
  have hdecls : ∀ d, Follows Draft.Declares (.start (.ofNat args)) decls d ↔
      Tree.InOrder (decls.filterMap Tree.Decl.var?) ∧ Tree.InOrder (decls.filterMap Tree.Decl.temp?) ∧
        ⟨.ofNat args, .ofNat (decls.filterMap Tree.Decl.var?).length,
          .ofNat (decls.filterMap Tree.Decl.temp?).length, #[], none⟩ = d := by
    intro d
    have hzero : ∀ n, (0 : UInt32) + .ofNat n = .ofNat n := fun n => UInt32.zero_add _
    rw [follows_declares_iff (by rw [Draft.start, UInt32.toNat_zero]; omega)
      (by rw [Draft.start, UInt32.toNat_zero]; omega)]
    simp only [Draft.start, UInt32.toNat_zero, hzero, Tree.InOrder, List.range_eq_range']
  have hfinish : s.labels.Nodup → ∀ d : Draft, d.blocks = #[] →
      ((∃ d', bs.foldlM (fun d k => d.fill (s.block k.label) (k.denote s)) (d.createBlocks bs.length) =
          .ok d' ∧ d'.finish = .ok b) ↔
        ⟨d.args, d.vars, d.temps, .ofList (bs.map (·.denote s))⟩ = b) := by
    intro hnodup d hd
    obtain ⟨d', hfold, hblocks, hargs, hvars, htemps⟩ := foldlM_fill_eq (s := s) bs []
      (d := d.createBlocks bs.length) rfl hnodup (by rw [hs, List.length_map]; exact hblocks)
      (by rw [Draft.createBlocks_eq, hd]; simp)
    have hd' : d'.finish = .ok ⟨d.args, d.vars, d.temps, .ofList (bs.map (·.denote s))⟩ := by
      rw [Draft.finish_eq hblocks, hargs, hvars, htemps, Draft.createBlocks_eq]
      rfl
    rw [hfold, ← Except.ok.injEq (ε := BlockId), ← hd']
    constructor
    · rintro ⟨_, h, hb⟩
      cases h
      exact hb
    · intro hb
      exact ⟨d', rfl, hb⟩
  unfold Drafts
  simp only [hdecls]
  constructor
  · rintro ⟨hnodup, hvalid, d, d', ⟨hvars, htemps, rfl⟩, hd'⟩
    exact ⟨hvars, htemps, hnodup, hvalid, (hfinish hnodup _ rfl).1 ⟨d', hd'⟩⟩
  · rintro ⟨hvars, htemps, hnodup, hvalid, hb⟩
    obtain ⟨d', hd'⟩ := (hfinish hnodup ⟨.ofNat args, .ofNat (decls.filterMap Tree.Decl.var?).length,
      .ofNat (decls.filterMap Tree.Decl.temp?).length, #[], none⟩ rfl).2 hb
    exact ⟨hnodup, hvalid, _, d', ⟨hvars, htemps, rfl⟩, hd'⟩

end Parser

end BlockIR
