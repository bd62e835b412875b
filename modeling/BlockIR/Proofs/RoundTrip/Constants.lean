import BlockIR.Proofs.RoundTrip.Printing

/-!
# Constants that are written back

The text of a constant is one literal of that constant, unless it is infinite. A float can be too large for
a double, and then it is read as an infinite one, which is written as a word.
-/

namespace BlockIR

namespace Binary64

/-- A double that is not finite is written as a word, with a sign before it if it is a negative infinity. -/
lemma toText_of_not_isFinite {x : Binary64} (h : ¬ x.isFinite) :
    x.isNaN ∧ x.toText = "NaN" ∨ x.isInfinite ∧ (x.toText = "inf" ∨ x.toText = "-inf") := by
  have hfield : x.exponentField = 2047 := by
    have hlt : x.exponentField < 2048 := Nat.mod_lt _ (by decide)
    rw [isFinite, decide_eq_true_eq] at h
    omega
  unfold toText
  by_cases hnan : x.isNaN
  · rw [if_pos hnan]
    exact .inl ⟨hnan, rfl⟩
  · have hinfinite : x.isInfinite := by
      rw [isNaN, hfield] at hnan
      rw [isInfinite, hfield]
      simpa using hnan
    rw [if_neg hnan]
    dsimp only
    rw [if_pos hinfinite]
    cases x.negative
    · exact .inr ⟨hinfinite, .inl rfl⟩
    · exact .inr ⟨hinfinite, .inr rfl⟩

end Binary64

namespace Literal

lemma isNaN_of_magnitudeFloat? {negative : Bool} {spelling : List Char} {x : Binary64}
    (h : magnitudeFloat? negative spelling = some x) : x.isNaN = false := by
  unfold magnitudeFloat? at h
  dsimp only at h
  split at h
  · obtain ⟨digits, -, h⟩ := Option.bind_eq_some_iff.1 h
    obtain ⟨exponent, -, h⟩ := Option.bind_eq_some_iff.1 h
    cases h
    exact Binary64.isNaN_ofDecimal _ _ _
  · cases h

lemma isNaN_of_float? {spelling : List Char} {x : Binary64} (h : float? spelling = some x) :
    x.isNaN = false := by
  unfold float? at h
  split at h
  · exact isNaN_of_magnitudeFloat? h
  · exact isNaN_of_magnitudeFloat? h

end Literal

namespace Constant

/-- Another literal of the constant is all that there is in a text. -/
def Rereads (c : Constant) (text : String) : Prop :=
  ∃ t, (Lexeme.ofText text).map (·.token) = [t] ∧ ofToken? t = some (some c)

lemma rereads_text {c : Constant} (h : c.Finite) : c.Rereads c.text :=
  ⟨c.tree.token, (Token.open_constant h).tokens_ofText,
    ofToken?_tree h⟩

lemma not_rereads_word {c : Constant} {word : String} (h : Token.IsIdent word) : ¬ c.Rereads word := by
  rintro ⟨t, htokens, ht⟩
  rw [h] at htokens
  cases htokens
  cases ht

lemma not_rereads_negated {c : Constant} : ¬ c.Rereads "-inf" := by
  rintro ⟨t, htokens, ht⟩
  have htwo : ((Lexeme.ofText "-inf").map (·.token)).length = 2 := by decide +kernel
  rw [htokens] at htwo
  cases htwo

lemma isNaN_of_ofToken? {t : Token} {x : Binary64} (h : ofToken? t = some (some (.float x))) :
    x.isNaN = false := by
  unfold ofToken? at h
  split at h
  case h_3 s =>
    obtain ⟨y, hy, heq⟩ := Option.map_eq_some_iff.1 (Option.some.inj h)
    cases heq
    exact Literal.isNaN_of_float? hy
  all_goals simp at h

/-- A constant that a literal stands for is read again from its text if and only if it is finite. One that is
not is infinite, and its text is the word `inf`, with a sign before it or without one. -/
theorem rereads_text_iff {t : Token} {c : Constant} (h : ofToken? t = some (some c)) :
    (c.Rereads c.text ↔ c.Finite) ∧
      (¬ c.Finite → ∃ x, c = .float x ∧ x.isInfinite ∧ (c.text = "inf" ∨ c.text = "-inf")) := by
  have hinfinite (hc : ¬ c.Finite) : ∃ x, c = .float x ∧ x.isInfinite ∧ (c.text = "inf" ∨ c.text = "-inf") := by
    cases c with
    | float x =>
      rcases Binary64.toText_of_not_isFinite hc with ⟨hnan, -⟩ | hx
      · rw [isNaN_of_ofToken? h] at hnan
        cases hnan
      · exact ⟨x, rfl, hx⟩
    | _ => exact absurd trivial hc
  refine ⟨⟨fun hreads => ?_, rereads_text⟩, hinfinite⟩
  by_contra hc
  obtain ⟨x, -, -, htext | htext⟩ := hinfinite hc
  · rw [htext] at hreads
    exact not_rereads_word (by decide +kernel) hreads
  · rw [htext] at hreads
    exact not_rereads_negated hreads

/-- A literal that spells the bits of a negative number. -/
theorem rereads_bits :
    ofToken? (.int "0xffffffffffffffff") = some (some (.int (-1))) ∧ (int (-1)).text = "-1" ∧
      (int (-1)).Rereads "-1" := by
  have h : ofToken? (.int "0xffffffffffffffff") = some (some (.int (-1))) := by decide +kernel
  exact ⟨h, rfl, (rereads_text_iff h).1.2 trivial⟩

/-- A literal that is too large for a double is a constant, but its text is a word. -/
theorem overflow_not_rereads :
    ofToken? (.float "1.0e999") = some (some (.float (.infinity false))) ∧
      (float (.infinity false)).text = "inf" ∧ (Lexeme.ofText "inf").map (·.token) = [.ident "inf"] ∧
      ¬ (float (.infinity false)).Rereads "inf" := by
  have hword : Token.IsIdent "inf" := by decide +kernel
  exact ⟨by decide +kernel, by decide +kernel, hword, not_rereads_word hword⟩

end Constant

end BlockIR
