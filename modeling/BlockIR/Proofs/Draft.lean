import BlockIR.Draft
import BlockIR.Proofs.Results

/-!
# Filling drafts

If each created block is filled once, with its statements and then its terminator, no operation on the
draft is a misuse, and the finished body has the blocks that were given. However a draft is filled, the
finished body has as many blocks as were created.
-/

namespace BlockIR

/-- A block that is filled. -/
def OpenBlock.ofBlock (k : Block) : OpenBlock := ⟨k.statements.toArray, some k.terminator⟩

lemma toNat_add_one {i : UInt32} (h : i.toNat + 1 < UInt32.size) : (i + 1).toNat = i.toNat + 1 := by
  rw [UInt32.toNat_add]
  exact Nat.mod_eq_of_lt h

lemma modify_toArray_append {α : Type} (xs : List α) (a : α) (ys : List α) (f : α → α) :
    (xs ++ a :: ys).toArray.modify xs.length f = (xs ++ f a :: ys).toArray := by
  rw [List.modify_toArray, List.modify_eq_take_cons_drop (by simp)]
  simp

namespace Draft

/-- Fills a block of a draft. -/
def fill (d : Draft) (id : BlockId) (k : Block) : Except DraftFault Draft := do
  let d ← d.switchTo id
  let d ← k.statements.foldlM Draft.append d
  d.terminate k.terminator

variable {d : Draft} {id : BlockId} {xs ys : List OpenBlock} {b : OpenBlock}

lemma createBlocks_eq (n : Nat) (d : Draft) :
    d.createBlocks n = { d with blocks := d.blocks ++ List.replicate n OpenBlock.empty } := by
  induction n generalizing d with
  | zero => simp only [createBlocks, List.replicate_zero, Array.appendList_nil]
  | succ n ih =>
    simp only [createBlocks, ih, createBlock, List.replicate_succ, Array.appendList_cons]

lemma currentBlock_eq (hc : d.current = some id) (hid : Key.toNat id = xs.length)
    (hb : d.blocks = (xs ++ b :: ys).toArray) : d.currentBlock = .ok (xs.length, b) := by
  have hget : d.blocks[Key.toNat id]? = some b := by
    rw [hb, hid, List.getElem?_toArray, List.getElem?_append_right (Nat.le_refl _), Nat.sub_self]
    rfl
  simp only [currentBlock, hc, hget]
  rw [hid]

lemma modify_blocks (hb : d.blocks = (xs ++ b :: ys).toArray) (f : OpenBlock → OpenBlock) :
    d.blocks.modify xs.length f = (xs ++ f b :: ys).toArray := by
  rw [hb, modify_toArray_append]

lemma append_eq (hc : d.current = some id) (hid : Key.toNat id = xs.length)
    (hb : d.blocks = (xs ++ b :: ys).toArray) (ho : b.terminator = none) (s : Statement) :
    d.append s = .ok { d with blocks := (xs ++ ⟨b.statements.push s, none⟩ :: ys).toArray } := by
  unfold append
  rw [currentBlock_eq hc hid hb]
  simp only [bind, Except.bind, ho, Option.isSome_none, Bool.false_eq_true, if_false, modify_blocks hb]

lemma terminate_eq (hc : d.current = some id) (hid : Key.toNat id = xs.length)
    (hb : d.blocks = (xs ++ b :: ys).toArray) (ho : b.terminator = none) (t : Terminator) :
    d.terminate t = .ok { d with blocks := (xs ++ ⟨b.statements, some t⟩ :: ys).toArray } := by
  unfold terminate
  rw [currentBlock_eq hc hid hb]
  simp only [bind, Except.bind, ho, Option.isSome_none, Bool.false_eq_true, if_false, modify_blocks hb]

lemma foldlM_append_eq (hc : d.current = some id) (hid : Key.toNat id = xs.length)
    (hb : d.blocks = (xs ++ b :: ys).toArray) (ho : b.terminator = none) (l : List Statement) :
    l.foldlM append d =
      .ok { d with blocks := (xs ++ ⟨(b.statements.toList ++ l).toArray, none⟩ :: ys).toArray } := by
  induction l generalizing d b with
  | nil =>
    obtain ⟨statements, terminator⟩ := b
    cases ho
    simp only [List.foldlM_nil, List.append_nil, Array.toArray_toList, ← hb]
    rfl
  | cons s l ih =>
    rw [List.foldlM_cons, append_eq hc hid hb ho]
    simp only [bind, Except.bind]
    have hrest := ih (d := { d with blocks := (xs ++ ⟨b.statements.push s, none⟩ :: ys).toArray }) hc rfl rfl
    rw [hrest]
    simp only [Array.toList_push, List.append_assoc, List.cons_append, List.nil_append]

lemma fill_eq (hid : Key.toNat id = xs.length) (hb : d.blocks = (xs ++ .empty :: ys).toArray)
    (k : Block) :
    d.fill id k =
      .ok { d with blocks := (xs ++ .ofBlock k :: ys).toArray, current := some id } := by
  have hlt : Key.toNat id < d.blocks.size := by
    rw [hb, hid, List.size_toArray, List.length_append, List.length_cons]
    omega
  have hswitch : d.switchTo id = .ok { d with current := some id } := by
    simp only [switchTo, hlt, if_true]
  have hstatements := foldlM_append_eq (d := { d with current := some id }) rfl hid hb rfl k.statements
  have hterminator := terminate_eq
    (d := { d with
      blocks := (xs ++ ⟨(OpenBlock.empty.statements.toList ++ k.statements).toArray, none⟩ :: ys).toArray
      current := some id }) rfl hid rfl rfl k.terminator
  unfold fill
  rw [hswitch]
  simp only [bind, Except.bind]
  rw [hstatements]
  simp only
  rw [hterminator]
  simp only [OpenBlock.empty, OpenBlock.ofBlock, List.nil_append]

lemma closeFrom_eq (i : Nat) (ks : List Block) : closeFrom i (ks.map .ofBlock) = .ok ks := by
  induction ks generalizing i with
  | nil => rfl
  | cons k ks ih =>
    rw [List.map_cons, closeFrom]
    simp only [OpenBlock.closed?, OpenBlock.ofBlock, Option.map_some, ih]

lemma finish_eq {ks : List Block} (hb : d.blocks = (ks.map .ofBlock).toArray) :
    d.finish = .ok ⟨d.args, d.vars, d.temps, .ofList ks⟩ := by
  unfold finish
  rw [hb]
  simp only [closeFrom_eq]

section Sizes

variable {d' : Draft}

lemma size_append {s : Statement} (h : d.append s = .ok d') : d'.blocks.size = d.blocks.size := by
  obtain ⟨⟨i, block⟩, -, h⟩ := exists_of_bind_eq_ok h
  dsimp only at h
  split_ifs at h
  cases h
  exact Array.size_modify

lemma size_terminate {t : Terminator} (h : d.terminate t = .ok d') : d'.blocks.size = d.blocks.size := by
  obtain ⟨⟨i, block⟩, -, h⟩ := exists_of_bind_eq_ok h
  dsimp only at h
  split_ifs at h
  cases h
  exact Array.size_modify

lemma size_switchTo (h : d.switchTo id = .ok d') : d'.blocks.size = d.blocks.size := by
  unfold switchTo at h
  split_ifs at h
  cases h
  rfl

lemma size_fill {k : Block} (h : d.fill id k = .ok d') : d'.blocks.size = d.blocks.size := by
  obtain ⟨d₁, hswitch, h⟩ := exists_of_bind_eq_ok h
  obtain ⟨d₂, happend, h⟩ := exists_of_bind_eq_ok h
  calc d'.blocks.size = d₂.blocks.size := size_terminate h
    _ = d₁.blocks.size := eq_of_foldlM_eq_ok (f := (·.blocks.size)) size_append happend
    _ = d.blocks.size := size_switchTo hswitch

lemma length_closeFrom {i : Nat} {l : List OpenBlock} {ks : List Block} (h : closeFrom i l = .ok ks) :
    ks.length = l.length := by
  induction l generalizing i ks with
  | nil =>
    cases h
    rfl
  | cons o l ih =>
    unfold closeFrom at h
    split at h
    · cases h
    · split at h
      · cases h
      · next hrest =>
        cases h
        exact congrArg (· + 1) (ih hrest)

lemma size_finish {body : Body} (h : d.finish = .ok body) : body.blocks.size = d.blocks.size := by
  unfold finish at h
  split at h
  · cases h
  · next hblocks =>
    cases h
    exact length_closeFrom hblocks

end Sizes

end Draft

end BlockIR
