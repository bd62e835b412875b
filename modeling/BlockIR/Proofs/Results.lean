import Mathlib.Tactic.Common

/-!
# Results of computations that can fail

What has a result gave one at each step on the way to it.
-/

namespace BlockIR

variable {ε α β σ : Type}

lemma exists_of_bind_eq_ok {r : Except ε α} {k : α → Except ε β} {b : β} (h : (r >>= k) = .ok b) :
    ∃ a, r = .ok a ∧ k a = .ok b := by
  cases r with
  | error e => cases h
  | ok a => exact ⟨a, rfl, h⟩

lemma forall_mem_of_mapM_eq_ok {k : α → Except ε β} {P : β → Prop} {xs : List α}
    (hk : ∀ a ∈ xs, ∀ b, k a = .ok b → P b) {ys : List β} (h : xs.mapM k = .ok ys) : ∀ b ∈ ys, P b := by
  induction xs generalizing ys with
  | nil =>
    cases h
    intro b hb
    cases hb
  | cons a xs ih =>
    rw [List.mapM_cons] at h
    obtain ⟨b, hb, h⟩ := exists_of_bind_eq_ok h
    obtain ⟨bs, hbs, h⟩ := exists_of_bind_eq_ok h
    cases h
    have hxs : ∀ b ∈ bs, P b := ih (fun a' ha' => hk a' (List.mem_cons_of_mem a ha')) hbs
    exact List.forall_mem_cons.2 ⟨hk a List.mem_cons_self b hb, hxs⟩

lemma eq_of_foldlM_eq_ok {step : σ → α → Except ε σ} {f : σ → β}
    (hstep : ∀ {s a s'}, step s a = .ok s' → f s' = f s) {l : List α} {s s' : σ}
    (h : l.foldlM step s = .ok s') : f s' = f s := by
  induction l generalizing s with
  | nil =>
    cases h
    rfl
  | cons a l ih =>
    rw [List.foldlM_cons] at h
    obtain ⟨s₁, hs₁, h⟩ := exists_of_bind_eq_ok h
    exact (ih h).trans (hstep hs₁)

end BlockIR
