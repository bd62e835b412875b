import BlockIR.Proofs.Machine.Reach
import BlockIR.Proofs.Results

/-!
# Effects on the stacks

All that a step can do to the frames and to the values: write to a slot of the innermost frame, make that
frame execute another block, push the frame of a call, or pop the frame that returns. A step that fails
does nothing to them.
-/

namespace BlockIR

lemma Frame.offset_le_of_slot? {fr : Frame} {p : Place} {i : Nat} (h : fr.slot? p = some i) :
    fr.offset ≤ i := by
  cases p with
  | result =>
    obtain rfl := Option.some.inj h
    exact Nat.le_refl _
  | arg j =>
    obtain ⟨-, rfl⟩ := Option.ite_some_none_eq_some.1 h
    omega
  | var j =>
    obtain ⟨-, rfl⟩ := Option.ite_some_none_eq_some.1 h
    omega
  | temp j =>
    obtain ⟨-, rfl⟩ := Option.ite_some_none_eq_some.1 h
    omega

namespace Machine

/-- The same frames and the same values in all slots. -/
structure SameStacks (s s' : Machine) : Prop where
  calls : s'.calls = s.calls
  values : s'.values = s.values

lemma SameStacks.refl (s : Machine) : SameStacks s s := ⟨rfl, rfl⟩

lemma SameStacks.trans {s s₁ s₂ : Machine} (h : SameStacks s s₁) (h' : SameStacks s₁ s₂) :
    SameStacks s s₂ := ⟨h'.calls.trans h.calls, h'.values.trans h.values⟩

lemma sameStacks_beginCall (s : Machine) : SameStacks s s.beginCall :=
  ⟨s.beginCall_calls, s.beginCall_values⟩

lemma slot_eq_ok_iff {s : Machine} {p : Place} {i : Nat} :
    s.slot p = .ok i ↔ ∃ fr, s.calls.top? = some fr ∧ fr.slot? p = some i := by
  unfold slot
  cases s.calls.top? with
  | none => simp only [reduceCtorEq, false_and, exists_false]
  | some fr =>
    simp only [Option.some.injEq, exists_eq_left']
    cases fr.slot? p with
    | none => simp only [reduceCtorEq]
    | some j => simp only [Except.ok.injEq, Option.some.injEq]

/-- What a step can do to the stacks of a machine. -/
inductive Effect (x : Setting) (base : Nat) (s : Machine) : Progress → Prop
  | keep {c : Control} {s' : Machine} (h : SameStacks s s') : Effect x base s (.running c s')
  | write {c : Control} {s' : Machine} {p : Place} {i : Nat} {v : Value} (hslot : s.slot p = .ok i)
      (h : SameStacks (s.writeSlot i v) s') : Effect x base s (.running c s')
  | jump {c : Control} {s' : Machine} {target : BlockId} (h : SameStacks (s.jump target) s') :
      Effect x base s (.running c s')
  | enter {c : Control} {s' : Machine} {p : Place} {i : Nat} {f : FuncId} {args : List Value}
      {target : BlockId} {fr : Frame} (hslot : s.slot p = .ok i)
      (hnew : s.newFrame x f args (some (i, target)) = .ok fr) (h : SameStacks (s.enter x fr args) s') :
      Effect x base s (.running c s')
  | goOn {c : Control} {s' : Machine} {fr : Frame} {i : Nat} {target : BlockId} {v : Value}
      (htop : s.calls.top? = some fr) (hreturn : fr.returnTo = some (i, target))
      (hbase : base < s.depth - 1) (h : SameStacks (((s.leave x fr).writeSlot i v).jump target) s') :
      Effect x base s (.running c s')
  | finish {v : Value} {s' : Machine} {fr : Frame} (htop : s.calls.top? = some fr)
      (hend : fr.returnTo = none ∨ s.depth - 1 ≤ base) (h : SameStacks (s.leave x fr) s') :
      Effect x base s (.returned v s')
  | fail {e : Fault} {s' : Machine} (h : SameStacks s s') : Effect x base s (.failed e s')

section Steps

variable {x : Setting} {base : Nat} {s : Machine}

lemma Effect.of_sameStacks {s' : Machine} {r : Progress} (h : Effect x base s' r) (hs : SameStacks s s') :
    Effect x base s r := by
  obtain ⟨calls, values, steps, log⟩ := s
  obtain ⟨calls', values', steps', log'⟩ := s'
  obtain ⟨rfl, rfl⟩ : calls' = calls ∧ values' = values := ⟨hs.calls, hs.values⟩
  cases h with
  | keep h => exact .keep ⟨h.calls, h.values⟩
  | write hslot h => exact .write hslot ⟨h.calls, h.values⟩
  | jump h => exact .jump ⟨h.calls, h.values⟩
  | enter hslot hnew h => exact .enter hslot hnew ⟨h.calls, h.values⟩
  | goOn htop hreturn hbase h => exact .goOn htop hreturn hbase ⟨h.calls, h.values⟩
  | finish htop hend h => exact .finish htop hend ⟨h.calls, h.values⟩
  | fail h => exact .fail ⟨h.calls, h.values⟩

lemma slot_of_write? {a : Action} {i : Nat} {v : Value} (h : s.write? a = .ok (some (i, v))) :
    ∃ p, s.slot p = .ok i := by
  cases a with
  | assign p r =>
    obtain ⟨j, hslot, h⟩ := exists_of_bind_eq_ok h
    obtain ⟨w, -, h⟩ := exists_of_bind_eq_ok h
    cases h
    exact ⟨p, hslot⟩
  | drop k p =>
    obtain ⟨-, -, h⟩ := exists_of_bind_eq_ok h
    cases h

lemma newFrame_of_callMove {p : Place} {callee : Operand} {args : List Operand} {target : BlockId}
    {mv : Move} (h : s.callMove x p callee args target = .ok mv) :
    ∃ i f vs fr, s.slot p = .ok i ∧ s.newFrame x f vs (some (i, target)) = .ok fr ∧ mv = .enter fr vs := by
  obtain ⟨i, hslot, h⟩ := exists_of_bind_eq_ok h
  obtain ⟨v, -, h⟩ := exists_of_bind_eq_ok h
  cases v with
  | func f =>
    obtain ⟨vs, -, h⟩ := exists_of_bind_eq_ok h
    obtain ⟨fr, hnew, h⟩ := exists_of_bind_eq_ok h
    cases h
    exact ⟨i, f, vs, fr, hslot, hnew, rfl⟩
  | _ => cases h

lemma effect_return (v : Value) : Effect x base s (s.return_ x base v) := by
  unfold return_
  cases htop : s.calls.top? with
  | none => exact .fail (.refl s)
  | some fr =>
    dsimp only
    cases hreturn : fr.returnTo with
    | none => exact .finish htop (.inl hreturn) (.refl _)
    | some r =>
      obtain ⟨i, target⟩ := r
      dsimp only
      split
      · next hbase => exact .goOn htop hreturn hbase (.refl _)
      · next hbase => exact .finish htop (.inr (Nat.le_of_not_lt hbase)) (.refl _)

lemma effect_apply {t : Transfer} {mv : Move} (h : s.move x t = .ok mv) :
    Effect x base s (s.apply x base mv) := by
  cases mv with
  | jump target => exact .jump (.refl _)
  | leave v => exact effect_return v
  | enter fr vs =>
    cases t with
    | call p callee args target =>
      obtain ⟨i, f, vs', fr', hslot, hnew, he⟩ := newFrame_of_callMove h
      cases he
      exact .enter hslot hnew (.refl _)
    | ret =>
      obtain ⟨v, -, h⟩ := exists_of_bind_eq_ok h
      cases h
    | branch c t e =>
      obtain ⟨b, -, h⟩ := exists_of_bind_eq_ok h
      cases h
    | switch p cases targets =>
      obtain ⟨b, -, h⟩ := exists_of_bind_eq_ok h
      cases h
    | goto target => cases h
    | diverge => cases h
    | panic target => cases h

lemma effect_execute (name : BlockId) (rest : List Statement) (t : Terminator) :
    Effect x base s (s.execute x base name rest t) := by
  have hcounted : ∀ e, SameStacks s (record e { s with steps := s.steps + 1 }) := fun _ => ⟨rfl, rfl⟩
  unfold execute
  dsimp only
  split
  · exact .fail ⟨rfl, rfl⟩
  · cases rest with
    | nil =>
      dsimp only
      split
      · exact .fail (hcounted _)
      · next mv hmv => exact (effect_apply hmv).of_sameStacks (hcounted _)
    | cons st rest =>
      dsimp only
      split
      · exact .fail (hcounted _)
      · exact .keep (hcounted _)
      · next i v hwrite =>
        obtain ⟨p, hslot⟩ := slot_of_write? hwrite
        exact (Effect.write hslot (.refl _)).of_sameStacks (hcounted _)

/-- Every step has one of the effects. -/
lemma effect_step (x : Setting) (base : Nat) (s : Machine) (c : Control) :
    Effect x base s (s.step x base c) := by
  cases c with
  | within name rest t => exact effect_execute name rest t
  | start =>
    unfold step
    dsimp only
    split
    · exact .fail (.refl s)
    · exact effect_execute _ _ _

end Steps

end Machine

end BlockIR
