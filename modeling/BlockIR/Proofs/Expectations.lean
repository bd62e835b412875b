import BlockIR.FileTest.Expectation
import BlockIR.Proofs.Lines
import Mathlib.Data.List.Infix
import Mathlib.Order.Bounds.Basic

/-!
# What file tests expect

A list of checks is met by the outputs that have its checks among their lines, in order, and what is reported
is the check behind the longest part of the list of which that holds. A section that is written as comments is
read as its lines, whatever these look like, and is met by the outputs in which it occurs.
-/

namespace BlockIR

namespace Text

variable {line cs part : List Char}

lemma toList_intercalate_cons {ls : List String} (hne : ls ≠ []) (l : String) :
    (String.intercalate "\n" (l :: ls)).toList = l.toList ++ '\n' :: (String.intercalate "\n" ls).toList := by
  rw [String.intercalate_cons_of_ne_nil hne, String.toList_append, String.toList_append, List.append_assoc]
  rfl

lemma lineChars_intercalate {ls rest : List String}
    (h : ∀ l ∈ ls, '\n' ∉ l.toList ∧ l.toList.getLast? ≠ some '\r') (hrest : rest ≠ []) :
    lineChars (String.intercalate "\n" (ls ++ rest)).toList =
      ls.map String.toList ++ lineChars (String.intercalate "\n" rest).toList := by
  induction ls with
  | nil => rfl
  | cons l ls ih =>
    obtain ⟨⟨hbreak, hreturn⟩, htail⟩ := List.forall_mem_cons.1 h
    have hne : ls ++ rest ≠ [] := List.append_ne_nil_of_right_ne_nil ls hrest
    rw [List.cons_append, toList_intercalate_cons hne, lineChars_append_break hbreak hreturn, ih htail,
      List.map_cons, List.cons_append]

lemma after?_append (lead cs : List Char) : after? lead (lead ++ cs) = some cs := by
  induction lead with
  | nil => rfl
  | cons c lead ih => rw [List.cons_append, after?, if_pos rfl, ih]

lemma trimRight_of_getLast? (h : ∀ c ∈ line.getLast?, ¬isBlank c) : trimRight line = line := by
  rw [← List.head?_reverse] at h
  unfold trimRight
  cases hline : line.reverse with
  | nil => exact (List.reverse_eq_nil_iff.1 hline).symm
  | cons c cs =>
    have hc : ¬isBlank c := h c (by rw [hline]; rfl)
    rw [List.dropWhile_cons_of_neg hc, ← hline, List.reverse_reverse]

lemma occursIn_iff_infix : occursIn part cs ↔ part <:+: cs := by
  induction cs with
  | nil => rw [occursIn, List.isEmpty_iff, List.infix_nil]
  | cons c cs ih => rw [occursIn, Bool.or_eq_true, List.isPrefixOf_iff_prefix, ih, List.infix_cons_iff]

end Text

namespace FileTest.Expectation

section Checks

variable {checks ls : List String} {c l : String} {k : Nat}

/-- This many checks, from the first, are among the lines in the same order. -/
def Matched (checks ls : List String) (k : Nat) : Prop := k ≤ checks.length ∧ (checks.take k).Sublist ls

lemma matched_zero (checks ls : List String) : Matched checks ls 0 :=
  ⟨Nat.zero_le _, List.nil_sublist ls⟩

lemma Matched.of_cons (h : Matched checks ls k) (l : String) : Matched checks (l :: ls) k :=
  ⟨h.1, h.2.cons l⟩

lemma matched_cons_cons_iff : Matched (c :: checks) (c :: ls) (k + 1) ↔ Matched checks ls k := by
  rw [Matched, Matched, List.length_cons, Nat.add_le_add_iff_right, List.take_succ_cons, List.cons_sublist_cons]

lemma matched_cons_iff_of_ne (h : l ≠ c) :
    Matched (c :: checks) (l :: ls) k ↔ Matched (c :: checks) ls k := by
  constructor
  · intro hmatched
    cases k with
    | zero => exact matched_zero _ _
    | succ k =>
      have hsublist := hmatched.2
      rw [List.take_succ_cons] at hsublist
      exact ⟨hmatched.1, List.take_succ_cons ▸ hsublist.of_cons_of_ne h.symm⟩
  · intro hmatched
    exact hmatched.of_cons l

/-- Giving the first check the first line that equals it leaves the most lines to the checks behind it. -/
lemma isGreatest_cons_cons (h : IsGreatest {k | Matched checks ls k} k) :
    IsGreatest {k | Matched (c :: checks) (c :: ls) k} (k + 1) := by
  refine ⟨matched_cons_cons_iff.2 h.1, fun j hj => ?_⟩
  cases j with
  | zero => exact Nat.zero_le _
  | succ j => exact Nat.succ_le_succ (h.2 (matched_cons_cons_iff.1 hj))

lemma exists_longest_matched (checks ls : List String) :
    ∃ k, IsGreatest {k | Matched checks ls k} k ∧ firstUnmatched? checks ls = checks[k]? := by
  fun_induction firstUnmatched? checks ls with
  | case1 ls => exact ⟨0, ⟨matched_zero _ _, fun j hj => hj.1⟩, rfl⟩
  | case2 c cs =>
    refine ⟨0, ⟨matched_zero _ _, fun j hj => ?_⟩, rfl⟩
    have hnone := List.sublist_nil.1 hj.2
    cases j with
    | zero => exact Nat.le_refl 0
    | succ j => rw [List.take_succ_cons] at hnone; cases hnone
  | case3 cs l ls ih =>
    obtain ⟨k, hk, hunmatched⟩ := ih
    exact ⟨k + 1, isGreatest_cons_cons hk, hunmatched⟩
  | case4 c cs l ls hne ih =>
    obtain ⟨k, hk, hunmatched⟩ := ih
    refine ⟨k, ?_, hunmatched⟩
    simp only [matched_cons_iff_of_ne hne]
    exact hk

lemma longest_eq_length_iff (h : IsGreatest {k | Matched checks ls k} k) :
    checks.length ≤ k ↔ checks.Sublist ls := by
  constructor
  · intro hle
    have hsublist := h.1.2
    rwa [List.take_of_length_le hle] at hsublist
  · intro hsublist
    exact h.2 ⟨Nat.le_refl _, by rwa [List.take_length]⟩

/-- An output meets a list of checks if and only if they are among its lines, in order. If it does not, the
failure names the check behind the longest part of the list of which that holds, and has the whole output. -/
theorem checks_met_iff_sublist (checks : List String) (output : String) :
    ((lines checks).failure? (.output output) = none ↔ checks.Sublist (Text.lines output)) ∧
      ∃ k, IsGreatest {k | k ≤ checks.length ∧ (checks.take k).Sublist (Text.lines output)} k ∧
        (lines checks).failure? (.output output) = checks[k]?.map fun check => .unmatched check output := by
  obtain ⟨k, hk, hunmatched⟩ := exists_longest_matched checks (Text.lines output)
  have hfailure : (lines checks).failure? (.output output) =
      checks[k]?.map fun check => .unmatched check output := by
    rw [failure?, hunmatched]
  refine ⟨?_, k, hk, hfailure⟩
  rw [hfailure, Option.map_eq_none_iff, List.getElem?_eq_none_iff]
  exact longest_eq_length_iff hk

/-- A check that is given twice needs two lines. -/
example : firstUnmatched? ["a", "c", "a"] ["a", "a", "b", "c"] = some "a" := by decide

end Checks

section Sections

open Text

variable {l : String} {ls rest : List String}

/-- A line that a section can have: it holds no line break, and no blank at its end. -/
structure IsSectionLine (l : String) : Prop where
  unbroken : '\n' ∉ l.toList
  ends : ∀ c ∈ l.toList.getLast?, ¬Text.isBlank c

instance (l : String) : Decidable (IsSectionLine l) :=
  decidable_of_iff ('\n' ∉ l.toList ∧ l.toList.getLast?.all (fun c => !Text.isBlank c) = true) <| by
    have hends : l.toList.getLast?.all (fun c => !Text.isBlank c) = true ↔
        ∀ c ∈ l.toList.getLast?, ¬Text.isBlank c := by
      simp only [Option.all_eq_true, Bool.not_eq_true', Option.mem_def, Bool.not_eq_true]
    rw [hends]
    exact ⟨fun ⟨hbreak, hblank⟩ => ⟨hbreak, hblank⟩, fun hline => ⟨hline.unbroken, hline.ends⟩⟩

/-- A line of a section as a comment. -/
def sectionComment (l : String) : String := if l = "" then "//" else "// " ++ l

/-- The lines of a section as comments between their marks, and more lines below them. -/
def sectionLines (ls rest : List String) : List String := "//" :: ls.map sectionComment ++ "///" :: rest

/-- A file whose header is a section of these lines, with the lines of the rest below it. -/
def sectionFile (ls rest : List String) : String :=
  String.intercalate "\n" ("// MATCH-SECTION" :: sectionLines ls rest)

/-- The text of these lines, each with a line break at its end. -/
def brokenLines (ls : List String) : String := String.join (ls.map (· ++ "\n"))

lemma toList_sectionComment_of_ne (h : l ≠ "") : (sectionComment l).toList = "// ".toList ++ l.toList := by
  rw [sectionComment, if_neg h, String.toList_append]

lemma sectionLine_sectionComment (l : String) : sectionLine (sectionComment l).toList = l.toList := by
  by_cases h : l = ""
  · subst h
    rfl
  · have hne : "// ".toList ++ l.toList ≠ "//".toList := by
      intro heq
      cases heq
    rw [toList_sectionComment_of_ne h, sectionLine, if_neg hne, Text.after?_append, Option.getD_some]

lemma sectionComment_ne (l : String) : (sectionComment l).toList ≠ "///".toList := by
  by_cases h : l = ""
  · subst h
    decide
  · rw [toList_sectionComment_of_ne h]
    intro heq
    cases heq

lemma IsSectionLine.sectionComment (h : IsSectionLine l) : IsSectionLine (sectionComment l) := by
  by_cases hl : l = ""
  · subst hl
    decide
  · have hne : l.toList ≠ [] := fun hnil => hl (String.toList_eq_nil_iff.1 hnil)
    constructor
    · rw [toList_sectionComment_of_ne hl, List.mem_append, not_or]
      exact ⟨by decide, h.unbroken⟩
    · rw [toList_sectionComment_of_ne hl, List.getLast?_append_of_ne_nil _ hne]
      exact h.ends

lemma IsSectionLine.getLast?_ne (h : IsSectionLine l) : l.toList.getLast? ≠ some '\r' :=
  fun hlast => h.ends '\r' hlast rfl

lemma exists_lineChars_end (rest : List String) :
    ∃ more, lineChars (String.intercalate "\n" ("///" :: rest)).toList = "///".toList :: more := by
  cases rest with
  | nil => exact ⟨[], lineChars_of_unbroken (by decide) (by decide)⟩
  | cons r rest =>
    have hlines : lineChars (String.intercalate "\n" (["///"] ++ r :: rest)).toList =
        ["///"].map String.toList ++ lineChars (String.intercalate "\n" (r :: rest)).toList :=
      lineChars_intercalate (by decide) (List.cons_ne_nil _ _)
    exact ⟨_, hlines⟩

/-- The lines of a section are found in its comments, up to the three slashes. -/
lemma section?_sectionLines (rest : List String)
    (h : ∀ l ∈ ls, IsSectionLine l) : section? (String.intercalate "\n" (sectionLines ls rest)).toList =
      some (ls.flatMap fun l => l.toList ++ ['\n']) := by
  obtain ⟨more, hmore⟩ := exists_lineChars_end rest
  have hcomments : ∀ l ∈ "//" :: ls.map sectionComment, IsSectionLine l :=
    List.forall_mem_cons.2 ⟨by decide, List.forall_mem_map.2 fun l hl => (h l hl).sectionComment⟩
  have hlines : lineChars (String.intercalate "\n" (sectionLines ls rest)).toList =
      "//".toList :: (ls.map fun l => (sectionComment l).toList) ++ "///".toList :: more := by
    rw [sectionLines, lineChars_intercalate (fun l hl => ⟨(hcomments l hl).unbroken, (hcomments l hl).getLast?_ne⟩)
      (List.cons_ne_nil _ _), hmore, List.map_cons, List.map_map]
    rfl
  have htrimmed : ((ls.map fun l => (sectionComment l).toList).map trimRight) =
      ls.map fun l => (sectionComment l).toList := by
    rw [List.map_map]
    exact List.map_congr_left fun l hl => trimRight_of_getLast? (h l hl).sectionComment.ends
  have hbefore : ∀ cs ∈ ls.map fun l => (sectionComment l).toList, decide (cs ≠ "///".toList) = true := by
    intro cs hcs
    obtain ⟨l, -, rfl⟩ := List.mem_map.1 hcs
    exact decide_eq_true (sectionComment_ne l)
  have hend : decide (trimRight "///".toList ≠ "///".toList) = false := by decide
  rw [section?, hlines, List.cons_append, List.map_cons, List.map_append, htrimmed, List.map_cons]
  dsimp only
  rw [if_pos (by decide), List.takeWhile_append_of_pos hbefore, List.takeWhile_cons, hend, if_neg Bool.false_ne_true,
    List.append_nil, List.flatMap_map]
  exact congrArg some (List.flatMap_congr fun l _ => congrArg (· ++ ['\n']) (sectionLine_sectionComment l))

lemma splitFirst?_append_break {first : List Char} (h : '\n' ∉ first) (cs : List Char) :
    splitFirst? (first ++ '\n' :: cs) = some (first, cs) := by
  have hfirst : ∀ c ∈ first, decide (c ≠ '\n') = true := fun c hc => decide_eq_true fun heq => h (heq ▸ hc)
  rw [splitFirst?, List.dropWhile_append_of_pos hfirst, List.takeWhile_append_of_pos hfirst,
    List.dropWhile_cons_of_neg (by decide), List.takeWhile_cons_of_neg (by decide), List.append_nil]

lemma toList_brokenLines (ls : List String) :
    (brokenLines ls).toList = ls.flatMap fun l => l.toList ++ ['\n'] := by
  rw [brokenLines, String.toList_join, List.flatMap_map]
  simp only [String.toList_append]
  rfl

lemma contains_iff {text part : String} : contains text part ↔ ∃ before after, text = before ++ part ++ after := by
  rw [contains, occursIn_iff_infix]
  constructor
  · rintro ⟨before, after, heq⟩
    refine ⟨String.ofList before, String.ofList after, String.toList_inj.1 ?_⟩
    simp only [String.toList_append, String.toList_ofList, heq]
  · rintro ⟨before, after, rfl⟩
    exact ⟨before.toList, after.toList, by simp only [String.toList_append]⟩

/-- A file that is written for some lines expects these lines, each with its break, and nothing else: an output
meets what the file expects if and only if they occur in it. The lines may look like comments or like the end of
the section, and what follows that end does not matter. -/
theorem sectionFile_expects_lines (file : String) (ls rest : List String) (h : ∀ l ∈ ls, IsSectionLine l) :
    ofText file (sectionFile ls rest) = .ok (.excerpt (brokenLines ls)) ∧
      ∀ output, (Expectation.excerpt (brokenLines ls)).failure? (.output output) = none ↔
        ∃ before after, output = before ++ brokenLines ls ++ after := by
  refine ⟨?_, fun output => ?_⟩
  · have hsplit : splitFirst? (sectionFile ls rest).toList =
        some ("// MATCH-SECTION".toList, (String.intercalate "\n" (sectionLines ls rest)).toList) := by
      have hne : sectionLines ls rest ≠ [] := List.cons_ne_nil _ _
      rw [sectionFile, toList_intercalate_cons hne, splitFirst?_append_break (by decide)]
    rw [ofText, hsplit]
    dsimp only
    rw [if_neg (by decide), if_pos (by decide), section?_sectionLines rest h, ← toList_brokenLines]
    dsimp only
    rw [String.ofList_toList]
  · rw [← contains_iff, failure?]
    split_ifs with hcontains
    · exact iff_of_true rfl hcontains
    · exact iff_of_false nofun hcontains

/-- Lines that look like the marks and the comments of a header. -/
def slashes : List String := ["///", "", "//", "    // CHECK: x", "// y"]

theorem slashes_expected :
    (∀ l ∈ slashes, IsSectionLine l) ∧
      ofText "a.mir" (sectionFile slashes ["///", "fn f() \x7b\x7d", ""]) =
        .ok (.excerpt "///\n\n//\n    // CHECK: x\n// y\n") ∧
      (Expectation.excerpt "///\n\n//\n    // CHECK: x\n// y\n").failure?
        (.output "x\n///\n\n//\n    // CHECK: x\n// y\nz\n") = none := by
  have h : ∀ l ∈ slashes, IsSectionLine l := by decide +kernel
  have hlines : brokenLines slashes = "///\n\n//\n    // CHECK: x\n// y\n" := by decide +kernel
  obtain ⟨hexpects, hmeets⟩ := sectionFile_expects_lines "a.mir" slashes ["///", "fn f() \x7b\x7d", ""] h
  rw [hlines] at hexpects hmeets
  exact ⟨h, hexpects, (hmeets _).2 ⟨"x\n", "z\n", by decide +kernel⟩⟩

end Sections

end FileTest.Expectation

end BlockIR
