import BlockIR.Proofs.Grammar.Resolution
import BlockIR.Proofs.Joining
import BlockIR.Proofs.Moved

/-!
# Issues in the order of the text

The verifier goes through the code of a module from its first function to its last, and the code of a module that
was parsed stands in the text in this order. So it reports issues in the order of the text, and to sort them before
they are shown changes nothing.
-/

namespace BlockIR

/-- Whether a position comes no later than another: it is on an earlier line, or on the same line and not further
right. -/
def Pos.NotAfter (p q : Pos) : Prop :=
  p.line.toNat < q.line.toNat ∨ p.line.toNat = q.line.toNat ∧ p.col.toNat ≤ q.col.toNat

lemma Pos.notAfter_self (p : Pos) : p.NotAfter p := .inr ⟨rfl, Nat.le_refl _⟩

section Tokens

/-- A place in a text comes no later than another. -/
def Cursor.NotAfter (p q : Cursor) : Prop := p.line < q.line ∨ p.line = q.line ∧ p.before ≤ q.before

lemma Cursor.NotAfter.trans {p q r : Cursor} (h : p.NotAfter q) (h' : q.NotAfter r) : p.NotAfter r := by
  unfold Cursor.NotAfter at *
  omega

lemma Cursor.notAfter_past (p : Cursor) (cs : List Char) : p.NotAfter (p.past cs) := by
  induction cs generalizing p with
  | nil => exact .inr ⟨rfl, Nat.le_refl _⟩
  | cons c cs ih =>
    have hstep : p.NotAfter (p.step c) := by
      unfold Cursor.step
      split_ifs
      · exact .inl (Nat.lt_succ_self _)
      · exact .inr ⟨rfl, Nat.le_succ _⟩
    exact hstep.trans (ih (p.step c))

namespace Lexeme

/-- A token is said to stand at a place, as far as columns are counted. -/
structure At (l : Lexeme) (p : Cursor) : Prop where
  line : l.span.line = p.line
  col : l.span.col = min (p.before + 1) Span.maxCol

variable {p : Cursor} {cs : List Char} {ls : List Lexeme}

lemma Scanned.pairwise (h : Scanned p cs ls) (hlines : p.line + (Text.lineChars cs).length ≤ Span.maxLine + 1) :
    (∀ l ∈ ls, ∃ q, p.NotAfter q ∧ l.At q) ∧
      ls.Pairwise fun l l' => ∃ q q', q.NotAfter q' ∧ l.At q ∧ l'.At q' := by
  induction h with
  | done _ => exact ⟨List.forall_mem_nil _, .nil⟩
  | @token p gap tail rest c k ls _ _ _ _ ih =>
    have hat : At ⟨k, .clamped (p.past gap).line ((p.past gap).before + 1) (tail.length + 1)⟩ (p.past gap) := by
      have hline := Text.count_lt_length_lineChars gap c (tail ++ rest)
      rw [← List.cons_append, ← List.append_assoc] at hline
      have hpast := Cursor.line_past p gap
      exact ⟨Nat.min_eq_left (by omega), rfl⟩
    have hword := Cursor.notAfter_past (p.past gap) (c :: tail)
    rw [← Cursor.past_append] at hword
    have hrest := Text.count_add_length_le (gap ++ c :: tail) rest
    have hpast := Cursor.line_past p (gap ++ c :: tail)
    obtain ⟨hafter, hpairs⟩ := ih (by omega)
    refine ⟨List.forall_mem_cons.2 ⟨⟨_, Cursor.notAfter_past p gap, hat⟩, fun l hl => ?_⟩,
      List.pairwise_cons.2 ⟨fun l hl => ?_, hpairs⟩⟩
    · obtain ⟨q, hq, hl⟩ := hafter l hl
      exact ⟨q, (Cursor.notAfter_past p _).trans hq, hl⟩
    · obtain ⟨q, hq, hl⟩ := hafter l hl
      exact ⟨_, q, hword.trans hq, hat, hl⟩

/-- The tokens of a text come in the order of their positions. -/
lemma pairwise_ofText {source : String} (hlines : (Text.lines source).length < 2 ^ 32) :
    ((ofText source).map Lexeme.pos).Pairwise Pos.NotAfter := by
  have hpairs := ((scanned_ofText source).pairwise ?_).2
  · rw [List.pairwise_map]
    refine hpairs.imp_of_mem fun hl hl' hplaces => ?_
    obtain ⟨q, q', hq, ⟨hline, hcol⟩, ⟨hline', hcol'⟩⟩ := hplaces
    obtain ⟨hl, hc⟩ := pos_of_mem_ofText hl
    obtain ⟨hl', hc'⟩ := pos_of_mem_ofText hl'
    unfold Cursor.NotAfter at hq
    unfold Pos.NotAfter
    omega
  · rw [Text.lines, List.length_map] at hlines
    have hstart : Cursor.start.line = 1 := rfl
    unfold Span.maxLine UInt32.size
    omega

end Lexeme

end Tokens

section Code

lemma sublist_flatMap {α β : Type} {f g : α → List β} {l : List α} (h : ∀ x ∈ l, (f x).Sublist (g x)) :
    (l.flatMap f).Sublist (l.flatMap g) := by
  induction l with
  | nil => exact .slnil
  | cons x l ih =>
    rw [List.flatMap_cons, List.flatMap_cons]
    exact (h x List.mem_cons_self).append (ih fun y hy => h y (List.mem_cons_of_mem x hy))

lemma Spells.positions_sublist {ls : List Leaf} {ts rest : List Lexeme} (h : Spells ls ts rest) :
    (ls.filterMap Leaf.pos).Sublist (ts.map Lexeme.pos) := by
  induction ls generalizing ts with
  | nil => exact List.nil_sublist _
  | cons l ls ih =>
    obtain ⟨lx, ts, rfl, hfits, h⟩ := h
    cases hpos : l.pos with
    | none =>
      rw [List.filterMap_cons_none hpos]
      exact (ih h).cons _
    | some p =>
      rw [List.filterMap_cons_some hpos, List.map_cons, hfits.2 p hpos]
      exact (ih h).cons_cons _

namespace Tree

lemma Statement.sublist_positions (st : Statement) : [st.pos].Sublist (st.leaves.filterMap Leaf.pos) := by
  obtain ⟨t, ls, hls⟩ := st.action.exists_leaves_eq
  rw [leaves, hls]
  exact (List.nil_sublist _).cons_cons _

lemma Terminator.sublist_positions (t : Terminator) : [t.pos].Sublist (t.leaves.filterMap Leaf.pos) := by
  obtain ⟨u, ls, hls⟩ := t.transfer.exists_leaves_eq
  rw [leaves, hls]
  exact (List.nil_sublist _).cons_cons _

variable {s : Scope} {names : List String}

lemma Block.sublist_positions (b : Block) : (b.denote s).positions.Sublist (b.leaves.filterMap Leaf.pos) := by
  have hstatements : (b.denote s).statements.map (·.pos) = b.statements.flatMap fun st => [st.pos] := by
    rw [← List.map_eq_flatMap, denote, List.map_map]
    rfl
  have hpos : (b.denote s).positions = b.statements.flatMap (fun st => [st.pos]) ++ [b.terminator.pos] :=
    congrArg (· ++ [b.terminator.pos]) hstatements
  rw [hpos, leaves]
  simp only [List.filterMap_append, List.filterMap_flatMap]
  have hleaves := sublist_flatMap fun st (_ : st ∈ b.statements) => st.sublist_positions
  exact ((hleaves.trans (List.sublist_append_right _ _)).append b.terminator.sublist_positions).trans
    (List.sublist_append_left _ _)

lemma Function.sublist_positions {f : Function} {g : BlockIR.Function} (hread : Module.ReadAs names f g)
    (hsize : g.body.blocks.size ≤ UInt32.size) : g.positions.Sublist (f.leaves.filterMap Leaf.pos) := by
  have hpos : g.positions = f.blocks.flatMap fun b => (b.denote ⟨names, f.blocks.map (·.label)⟩).positions := by
    rw [BlockIR.Function.positions, hread.body.blocks_eq hsize, Arena.toList_ofList, List.flatMap_map]
  rw [hpos, leaves, bodyLeaves]
  simp only [List.filterMap_append, List.filterMap_flatMap]
  have hleaves := sublist_flatMap fun b (_ : b ∈ f.blocks) =>
    b.sublist_positions (s := ⟨names, f.blocks.map (·.label)⟩)
  exact ((hleaves.trans (List.sublist_append_right _ _)).trans (List.sublist_append_left _ _)).trans
    (List.sublist_append_right _ _)

lemma sublist_positions {t : Tree} {gs : List BlockIR.Function} (h : List.Forall₂ (Module.ReadAs names) t gs)
    (hsize : ∀ g ∈ gs, g.body.blocks.size ≤ UInt32.size) :
    (gs.flatMap BlockIR.Function.positions).Sublist (t.leaves.filterMap Leaf.pos) := by
  induction h with
  | nil => exact .slnil
  | @cons f g t gs hread _ ih =>
    obtain ⟨hg, hgs⟩ := List.forall_mem_cons.1 hsize
    rw [Tree.leaves, List.flatMap_cons, List.flatMap_cons, List.filterMap_append]
    exact (Function.sublist_positions hread hg).append (ih hgs)

end Tree

/-- The positions of a module that is parsed are in the order of the text. -/
lemma Module.pairwise_positions {name source : String} {m : Module} (h : Module.parse name source = .ok m)
    (hkeyed : m.Keyed) (hlines : (Text.lines source).length < 2 ^ 32) : m.positions.Pairwise Pos.NotAfter := by
  obtain ⟨t, ht, -, hlength, hfunctions⟩ := exists_functions_of_parse h
  obtain ⟨fs, hfs, rfl⟩ := hfunctions (hlength ▸ hkeyed.functions)
  refine ((Lexeme.pairwise_ofText hlines).sublist ht.positions_sublist).sublist ?_
  exact Tree.sublist_positions hfs hkeyed.blocks

end Code

section Visits

/-- Issues are reported at positions, one position after another: at each there are some, or none. -/
inductive Visits : List Issue → List Pos → Prop
  | nil : Visits [] []
  | cons {found is : List Issue} {p : Pos} {ps : List Pos} (hp : ∀ i ∈ found, i.pos = p) (h : Visits is ps) :
      Visits (found ++ is) (p :: ps)

namespace Visits

variable {is js : List Issue} {ps qs : List Pos}

lemma append (h : Visits is ps) (h' : Visits js qs) : Visits (is ++ js) (ps ++ qs) := by
  induction h with
  | nil => exact h'
  | cons hp _ ih =>
    rw [List.append_assoc]
    exact .cons hp ih

lemma flatMap {α : Type} {f : α → List Issue} {g : α → List Pos} {l : List α} (h : ∀ x ∈ l, Visits (f x) (g x)) :
    Visits (l.flatMap f) (l.flatMap g) := by
  induction l with
  | nil => exact .nil
  | cons x l ih =>
    exact (h x List.mem_cons_self).append (ih fun y hy => h y (List.mem_cons_of_mem x hy))

lemma singleton {p : Pos} (flaws : List Flaw) : Visits (flaws.map (⟨·, p⟩)) [p] := by
  rw [← List.append_nil (flaws.map _)]
  refine .cons (fun i hi => ?_) .nil
  obtain ⟨flaw, -, rfl⟩ := List.mem_map.1 hi
  rfl

lemma mem (h : Visits is ps) : ∀ i ∈ is, i.pos ∈ ps := by
  induction h with
  | nil => exact List.forall_mem_nil _
  | cons hp _ ih =>
    intro i hi
    rcases List.mem_append.1 hi with hi | hi
    · exact hp i hi ▸ List.mem_cons_self
    · exact List.mem_cons_of_mem _ (ih i hi)

lemma pairwise (h : Visits is ps) (hps : ps.Pairwise Pos.NotAfter) :
    is.Pairwise fun i j => i.pos.NotAfter j.pos := by
  induction h with
  | nil => exact .nil
  | @cons found is p ps hp h ih =>
    obtain ⟨hfirst, hps⟩ := List.pairwise_cons.1 hps
    refine List.pairwise_append.2 ⟨List.pairwise_of_forall_mem_list fun i hi j hj => ?_, ih hps, fun i hi j hj => ?_⟩
    · rw [hp i hi, hp j hj]
      exact p.notAfter_self
    · rw [hp i hi]
      exact hfirst _ (h.mem j hj)

end Visits

lemma Module.visits_issues {m : Module} (hblocks : ∀ f ∈ m.functions.toList, f.body.isEmpty = false) :
    Visits m.issues m.positions := by
  have hblock : ∀ f b, Visits (Verifier.block m f b) b.positions := by
    intro f b
    refine .append ?_ (.singleton _)
    rw [List.map_eq_flatMap]
    exact .flatMap fun st _ => .singleton _
  refine .flatMap fun f hf => ?_
  have hfunction : Verifier.function m f = f.body.blocks.toList.flatMap (Verifier.block m f) := by
    rw [Verifier.function, hblocks f hf]
    rfl
  rw [hfunction]
  exact .flatMap fun b _ => hblock f b

end Visits

namespace Remark

lemma render_ofIssue {is : List Issue} (h : is.Pairwise fun i j => i.pos.NotAfter j.pos) (file : String) :
    render file (is.map .ofIssue) = String.intercalate "\n" (is.map fun i =>
      file ++ ":" ++ toString i.pos.line.toNat ++ ":" ++ toString i.pos.col.toNat ++ ": " ++ i.flaw.message) := by
  have hsorted : (is.map ofIssue).Pairwise fun a b => notAfter a b := by
    rw [List.pairwise_map]
    refine h.imp fun {i j} hij => ?_
    rw [notAfter, Bool.or_eq_true, Bool.and_eq_true]
    exact hij.imp decide_eq_true (.imp decide_eq_true decide_eq_true)
  rw [render, List.mergeSort_of_pairwise hsorted, List.map_map]
  rfl

end Remark

/-- The issues of a module that is parsed are reported in the order of the text: none of them stands on an earlier
line than one before it, or on the same line and further left. So they are shown in the order in which the verifier
finds them, each on a line with the name of the file, its line, its column and its message. This is of texts
whose lines can be counted, and of modules whose functions and blocks have keys of 32 bits; those of a text of
less than 2^32 bytes do. -/
theorem Module.issues_in_order {name source : String} {m : Module} (h : Module.parse name source = .ok m)
    (hlines : (Text.lines source).length < 2 ^ 32) :
    (m.Keyed → m.issues.Pairwise (fun i j => i.pos.NotAfter j.pos) ∧
      ∀ file, ReadError.render file source (.verify m.issues) = String.intercalate "\n" (m.issues.map fun i =>
        file ++ ":" ++ toString i.pos.line.toNat ++ ":" ++ toString i.pos.col.toNat ++ ": " ++ i.flaw.message)) ∧
    (source.utf8ByteSize < 2 ^ 32 → m.Keyed) := by
  refine ⟨fun hkeyed => ?_, keyed_of_parse h⟩
  have hblocks : ∀ f ∈ m.functions.toList, f.body.isEmpty = false := by
    intro f hf
    have hentry := ((resolved_of_keyed h hkeyed).bodies f hf).entry
    rw [Body.isEmpty, hentry]
    rfl
  have hordered := (visits_issues hblocks).pairwise (pairwise_positions h hkeyed hlines)
  exact ⟨hordered, Remark.render_ofIssue hordered⟩

/-- Code with undeclared locals, two of them in two statements on one line. -/
def careless : String :=
  "fn f() \x7b a: \x7b return = var0; return = var1; return; \x7d \x7d\nfn g() \x7b b: \x7b drop(tmp0); return; \x7d \x7d"

theorem careless_issues_in_order : (Text.lines careless).length < 2 ^ 32 ∧ careless.utf8ByteSize < 2 ^ 32 ∧
    ∃ m, Module.parse "m" careless = .ok m ∧ m.Keyed ∧
      m.issues.map (·.pos) = [⟨1, 15⟩, ⟨1, 30⟩, ⟨2, 15⟩] ∧
      m.issues.Pairwise (fun i j => i.pos.NotAfter j.pos) ∧
      ReadError.render "a.mir" careless (.verify m.issues) = String.intercalate "\n" (m.issues.map fun i =>
        "a.mir" ++ ":" ++ toString i.pos.line.toNat ++ ":" ++ toString i.pos.col.toNat ++ ": " ++ i.flaw.message) := by
  have hlines : (Text.lines careless).length < 2 ^ 32 := by decide +kernel
  have hsize : careless.utf8ByteSize < 2 ^ 32 := by decide +kernel
  have hpositions : (Module.parse "m" careless).map (fun m => m.issues.map (·.pos)) =
      .ok [⟨1, 15⟩, ⟨1, 30⟩, ⟨2, 15⟩] := by decide +kernel
  cases h : Module.parse "m" careless with
  | error e =>
    rw [h] at hpositions
    cases hpositions
  | ok m =>
    rw [h] at hpositions
    obtain ⟨hordered, hkeyed⟩ := Module.issues_in_order h hlines
    obtain ⟨hpairs, hrender⟩ := hordered (hkeyed hsize)
    exact ⟨hlines, hsize, m, rfl, hkeyed hsize, Except.ok.inj hpositions, hpairs, hrender "a.mir"⟩

end BlockIR
