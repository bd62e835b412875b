import BlockIR.Proofs.Violations

/-!
# Resolved modules

In a resolved module all names have found what they name: functions are found by their names, and every block
and function that code refers to exists. What is left to the verifier is what code says of locals and of
numbers of arguments.
-/

namespace BlockIR

/-- A block of a body in a module: what it refers to exists, and its code comes from a text. -/
structure Block.Resolved (m : Module) (b : Body) (k : Block) : Prop where
  successors : ∀ target ∈ k.terminator.transfer.successors, b.blocks.contains target
  items : ∀ st ∈ k.statements, ∀ g ∈ st.action.items, m.functions.contains g
  inputs : ∀ g ∈ k.terminator.transfer.items, m.functions.contains g
  switch : k.terminator.transfer.HasTargets
  pos : ∀ st ∈ k.statements, st.pos.isFake = false
  endPos : k.terminator.pos.isFake = false

structure Body.Resolved (m : Module) (b : Body) : Prop where
  entry : b.blocks.contains .entry
  blocks : ∀ k ∈ b.blocks.toList, k.Resolved m b

structure Module.Resolved (m : Module) : Prop where
  names : (m.functions.toList.map (·.name)).Nodup
  find : ∀ name f, m.find? name = some f ↔ ∃ function, m.get? f = some function ∧ function.name = name
  bodies : ∀ function ∈ m.functions.toList, function.body.Resolved m

/-- All that a verifier can find in a resolved module is that a local is not declared, or that a call which
names its callee gives it a wrong number of arguments. -/
lemma Module.Resolved.issue {m : Module} (h : m.Resolved) {i : Issue} (hi : i ∈ m.issues) :
    i.IsUndeclaredLocal m ∨ i.IsArgumentCount m := by
  cases Issue.mem_issues_iff.1 hi with
  | undeclaredLocal hi => exact .inl hi
  | argumentCount hi => exact .inr hi
  | noBlocks hi =>
    obtain ⟨f, hf, hblocks, -⟩ := hi
    have hentry := (h.bodies f hf).entry
    rw [Arena.contains, ← Arena.length_toList, hblocks] at hentry
    cases hentry
  | missingFunction hi =>
    obtain ⟨f, hf, k, hk, g, huse, hnone, -⟩ := hi
    have hblock := (h.bodies f hf).blocks k hk
    have hexists : m.functions.contains g := by
      rcases huse with ⟨st, hst, hg, -⟩ | ⟨hg, -⟩
      · exact hblock.items st hst g hg
      · exact hblock.inputs g hg
    rw [Verifier.contains_eq_false_iff.2 hnone] at hexists
    cases hexists
  | missingBlock hi =>
    obtain ⟨f, hf, k, hk, b, hb, -, hnone, -⟩ := hi
    have hexists := ((h.bodies f hf).blocks k hk).successors b hb
    rw [← Arena.isSome_get?, hnone] at hexists
    cases hexists
  | switchShape hi =>
    obtain ⟨f, hf, k, hk, p, cases, targets, hterminator, hfew, hmany, -⟩ := hi
    have hshape := ((h.bodies f hf).blocks k hk).switch
    rw [hterminator] at hshape
    exact (hshape.elim hfew hmany).elim

end BlockIR
