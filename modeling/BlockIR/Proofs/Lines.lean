import BlockIR.Text.Lines
import Mathlib.Data.List.Basic
import Mathlib.Data.List.Induction
import Mathlib.Tactic.Common

/-!
# Lines of a text

A line stands between two line breaks, and its number is that of the breaks before it. A text has a line for each
break, and one more for what follows the last break, if anything does.
-/

namespace BlockIR.Text

variable {line line' cs front after : List Char}

lemma linesAfter_break : linesAfter line ('\n' :: cs) = endLine line :: lineChars cs := by
  rw [linesAfter, if_pos rfl]
  rfl

lemma linesAfter_cons {c : Char} (hc : c ≠ '\n') : linesAfter line (c :: cs) = linesAfter (c :: line) cs := by
  rw [linesAfter, if_neg hc]

lemma linesAfter_append {part : List Char} (hpart : '\n' ∉ part) (cs : List Char) :
    linesAfter line (part ++ cs) = linesAfter (part.reverse ++ line) cs := by
  induction part generalizing line with
  | nil => rfl
  | cons c part ih =>
    rw [List.cons_append, linesAfter_cons (List.ne_of_not_mem_cons hpart).symm,
      ih (List.not_mem_of_not_mem_cons hpart), List.reverse_cons, List.append_assoc, List.singleton_append]

lemma length_linesAfter_append_break (line cs ds : List Char) :
    ∃ ls, ls.length = cs.count '\n' + 1 ∧ linesAfter line (cs ++ '\n' :: ds) = ls ++ lineChars ds := by
  induction cs generalizing line with
  | nil => exact ⟨[endLine line], rfl, linesAfter_break⟩
  | cons c cs ih =>
    rw [List.cons_append]
    by_cases hc : c = '\n'
    · obtain ⟨ls, hlength, hls⟩ := ih []
      refine ⟨endLine line :: ls, ?_, ?_⟩
      · rw [hc, List.length_cons, hlength, List.count_cons_self]
      · rw [hc, linesAfter_break, lineChars, hls, List.cons_append]
    · obtain ⟨ls, hlength, hls⟩ := ih (c :: line)
      refine ⟨ls, ?_, ?_⟩
      · rw [hlength, List.count_cons_of_ne hc]
      · rw [linesAfter_cons hc, hls]

/-- In a text that goes on behind some characters, these make up a line, with nothing that belongs to its end. -/
structure IsLine (front line after : List Char) : Prop where
  starts : front = [] ∨ ∃ front', front = front' ++ ['\n']
  unbroken : '\n' ∉ line
  ends : after = [] ∨ (∃ after', after = '\n' :: after') ∧ line.getLast? ≠ some '\r' ∨
    ∃ after', after = '\r' :: '\n' :: after'

lemma endLine_reverse (h : line.getLast? ≠ some '\r') : endLine line.reverse = line := by
  unfold endLine
  split
  · next cs hcs =>
    rw [List.reverse_eq_cons_iff] at hcs
    rw [hcs, List.getLast?_concat] at h
    exact absurd rfl h
  · exact List.reverse_reverse line

lemma lineChars_append_break (hbreak : '\n' ∉ line) (hreturn : line.getLast? ≠ some '\r') (cs : List Char) :
    lineChars (line ++ '\n' :: cs) = line :: lineChars cs := by
  rw [lineChars, linesAfter_append hbreak, linesAfter_break, List.append_nil, endLine_reverse hreturn]

lemma lineChars_of_unbroken (hbreak : '\n' ∉ line) (hne : line ≠ []) : lineChars line = [line] := by
  have hread : linesAfter [] (line ++ []) = linesAfter (line.reverse ++ []) [] := linesAfter_append hbreak []
  rw [List.append_nil, List.append_nil] at hread
  rw [lineChars, hread, linesAfter, if_neg (List.reverse_eq_nil_iff.not.2 hne), List.reverse_reverse]

lemma IsLine.getElem?_lineChars (h : IsLine front line after) (hne : line ≠ []) :
    (lineChars (front ++ line ++ after))[front.count '\n']? = some line := by
  have hfirst : (lineChars (line ++ after))[0]? = some line := by
    rcases h.ends with rfl | ⟨⟨after', rfl⟩, hlast⟩ | ⟨after', rfl⟩
    · rw [List.append_nil, lineChars_of_unbroken h.unbroken hne]
      rfl
    · rw [lineChars_append_break h.unbroken hlast]
      rfl
    · rw [lineChars, linesAfter_append h.unbroken, List.append_nil, linesAfter_cons (by decide), linesAfter_break]
      exact congrArg some (List.reverse_reverse line)
  rw [List.append_assoc]
  rcases h.starts with rfl | ⟨front', rfl⟩
  · exact hfirst
  · obtain ⟨ls, hlength, hls⟩ := length_linesAfter_append_break [] front' (line ++ after)
    rw [List.append_assoc, List.singleton_append, lineChars, hls, List.count_append, List.count_singleton_self,
      ← hlength, List.getElem?_append_right (Nat.le_refl _), Nat.sub_self]
    exact hfirst

lemma exists_line_start (before : List Char) : ∃ front head, before = front ++ head ∧
    (front = [] ∨ ∃ front', front = front' ++ ['\n']) ∧ '\n' ∉ head := by
  induction before using List.reverseRecOn with
  | nil => exact ⟨[], [], rfl, .inl rfl, List.not_mem_nil⟩
  | append_singleton before c ih =>
    by_cases hc : c = '\n'
    · exact ⟨before ++ [c], [], (List.append_nil _).symm, .inr ⟨before, by rw [hc]⟩, List.not_mem_nil⟩
    · obtain ⟨front, head, rfl, hstarts, hhead⟩ := ih
      refine ⟨front, head ++ [c], List.append_assoc _ _ _, hstarts, fun hmem => ?_⟩
      rcases List.mem_append.1 hmem with hmem | hmem
      · exact hhead hmem
      · exact hc (List.mem_singleton.1 hmem).symm

lemma exists_line_end {c : Char} (hc : c ≠ '\n') (hreturn : c ≠ '\r') (rest : List Char) :
    ∃ tail after, rest = tail ++ after ∧ '\n' ∉ c :: tail ∧
      (after = [] ∨ (∃ after', after = '\n' :: after') ∧ (c :: tail).getLast? ≠ some '\r' ∨
        ∃ after', after = '\r' :: '\n' :: after') := by
  by_cases hmem : '\n' ∈ rest
  · obtain ⟨tail, after, rfl, htail⟩ := List.eq_append_cons_of_mem hmem
    have hunbroken : '\n' ∉ c :: tail := List.not_mem_cons_of_ne_of_not_mem hc.symm htail
    rcases List.eq_nil_or_concat' tail with rfl | ⟨tail, d, rfl⟩
    · refine ⟨[], '\n' :: after, rfl, hunbroken, .inr (.inl ⟨⟨after, rfl⟩, fun hlast => ?_⟩)⟩
      exact hreturn (Option.some.inj hlast)
    · by_cases hd : d = '\r'
      · subst hd
        refine ⟨tail, '\r' :: '\n' :: after, by simp, ?_, .inr (.inr ⟨after, rfl⟩)⟩
        exact fun h => hunbroken (List.mem_append_left ['\r'] h)
      · refine ⟨tail ++ [d], '\n' :: after, rfl, hunbroken, .inr (.inl ⟨⟨after, rfl⟩, fun hlast => hd ?_⟩)⟩
        rw [← List.cons_append, List.getLast?_concat] at hlast
        exact Option.some.inj hlast
  · exact ⟨rest, [], (List.append_nil _).symm, List.not_mem_cons_of_ne_of_not_mem hc.symm hmem, .inl rfl⟩

/-- Every character of a text that belongs to no line break is in a line. -/
lemma exists_isLine {c : Char} (hc : c ≠ '\n') (hreturn : c ≠ '\r') (before rest : List Char) :
    ∃ front head tail after, before = front ++ head ∧ rest = tail ++ after ∧
      IsLine front (head ++ c :: tail) after := by
  obtain ⟨front, head, hbefore, hstarts, hhead⟩ := exists_line_start before
  obtain ⟨tail, after, hrest, htail, hends⟩ := exists_line_end hc hreturn rest
  refine ⟨front, head, tail, after, hbefore, hrest, hstarts, ?_, ?_⟩
  · exact List.not_mem_append hhead htail
  · rwa [List.getLast?_append_of_ne_nil _ (List.cons_ne_nil c tail)]

section Lengths

lemma length_linesAfter_le (h : line = [] ∨ line' ≠ []) (cs : List Char) :
    (linesAfter line cs).length ≤ (linesAfter line' cs).length := by
  induction cs generalizing line line' with
  | nil =>
    unfold linesAfter
    by_cases hline : line = []
    · rw [if_pos hline]
      exact Nat.zero_le _
    · rw [if_neg hline, if_neg (h.resolve_left hline)]
      exact Nat.le_refl _
  | cons c cs ih =>
    by_cases hc : c = '\n'
    · rw [hc, linesAfter_break, linesAfter_break]
      exact Nat.le_refl _
    · rw [linesAfter_cons hc, linesAfter_cons hc]
      exact ih (.inr (List.cons_ne_nil c line'))

lemma count_add_length_le (as bs : List Char) :
    as.count '\n' + (lineChars bs).length ≤ (lineChars (as ++ bs)).length := by
  have hfrom : ∀ line, as.count '\n' + (lineChars bs).length ≤ (linesAfter line (as ++ bs)).length := by
    induction as with
    | nil =>
      intro line
      rw [List.count_nil, Nat.zero_add, List.nil_append]
      exact length_linesAfter_le (.inl rfl) bs
    | cons c as ih =>
      intro line
      rw [List.cons_append]
      by_cases hc : c = '\n'
      · rw [hc, linesAfter_break, List.count_cons_self, List.length_cons, Nat.add_right_comm]
        exact Nat.succ_le_succ (ih [])
      · rw [linesAfter_cons hc, List.count_cons_of_ne hc]
        exact ih (c :: line)
  exact hfrom []

lemma linesAfter_ne_nil (hline : line ≠ []) (cs : List Char) : linesAfter line cs ≠ [] := by
  induction cs generalizing line with
  | nil =>
    rw [linesAfter, if_neg hline]
    exact List.cons_ne_nil _ _
  | cons c cs ih =>
    by_cases hc : c = '\n'
    · rw [hc, linesAfter_break]
      exact List.cons_ne_nil _ _
    · rw [linesAfter_cons hc]
      exact ih (List.cons_ne_nil c line)

lemma lineChars_cons_ne_nil (c : Char) (cs : List Char) : lineChars (c :: cs) ≠ [] := by
  by_cases hc : c = '\n'
  · rw [hc, lineChars, linesAfter_break]
    exact List.cons_ne_nil _ _
  · rw [lineChars, linesAfter_cons hc]
    exact linesAfter_ne_nil (List.cons_ne_nil c []) cs

lemma count_lt_length_lineChars (before : List Char) (c : Char) (rest : List Char) :
    before.count '\n' < (lineChars (before ++ c :: rest)).length := by
  have hle := count_add_length_le before (c :: rest)
  have hpos := List.length_pos_iff.2 (lineChars_cons_ne_nil c rest)
  omega

end Lengths

end BlockIR.Text
