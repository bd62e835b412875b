import BlockIR.Token.Lexer
import Mathlib.Data.List.Induction
import Mathlib.Tactic.Common

/-!
# Keywords

Insertion puts entries with different words in the lexicographic order of the bytes of their words. Among entries in
this order halving finds a word just if it has an entry, for no entry that is left out can have this word. So what is
found for a word is what the table of keywords says.
-/

namespace BlockIR

namespace Dictionary

variable {α : Type} {word : String} {v : α} {entry : String × α} {entries : List (String × α)}

lemma bytes_injective : Function.Injective bytes := fun _ _ h =>
  String.toByteArray_inj.1 (ByteArray.ext (Array.toList_inj.1 h))

lemma precedes_iff {as bs : List UInt8} : precedes as bs ↔ compare as bs = .lt := by
  fun_induction precedes as bs with
  | case1 a as b bs hne =>
    have hcompare : compare a b ≠ .eq := Std.compare_eq_iff_eq.not.2 hne
    rw [List.compare_cons_cons, decide_eq_true_iff, ← Std.compare_eq_lt]
    cases hab : compare a b with
    | eq => exact absurd hab hcompare
    | lt | gt => rfl
  | case2 a as b bs heq ih =>
    obtain rfl := of_not_not heq
    rw [ih, List.compare_cons_cons, Std.compare_eq_iff_eq.2 rfl]
    rfl
  | case3 as bs hcons =>
    cases as with
    | nil =>
      cases bs with
      | nil => decide
      | cons b bs => exact iff_of_true (decide_eq_true (Nat.succ_pos _)) rfl
    | cons a as =>
      cases bs with
      | nil => exact iff_of_false (by simp) (by simp)
      | cons b bs => exact (hcons a as b bs rfl rfl).elim

/-- The word of an entry comes before that of another. -/
def Before (a b : String × α) : Prop := compare (bytes a.1) (bytes b.1) = .lt

lemma Before.trans {a b c : String × α} (hab : Before a b) (hbc : Before b c) : Before a c :=
  Std.TransCmp.lt_trans hab hbc

lemma Before.ne {a b : String × α} (h : Before a b) : a.1 ≠ b.1 := by
  intro heq
  unfold Before at h
  rw [heq, Std.compare_eq_iff_eq.2 rfl] at h
  cases h

lemma before_or_before {a b : String × α} (h : a.1 ≠ b.1) : Before a b ∨ Before b a := by
  unfold Before
  cases hab : compare (bytes a.1) (bytes b.1) with
  | lt => exact .inl rfl
  | eq => exact absurd (bytes_injective (Std.compare_eq_iff_eq.1 hab)) h
  | gt => exact .inr (Std.OrientedCmp.gt_iff_lt.1 hab)

section Sorting

lemma perm_place (entry : String × α) (entries : List (String × α)) :
    (place entry entries).Perm (entry :: entries) := by
  induction entries with
  | nil => exact .refl _
  | cons last front ih =>
    rw [place]
    split_ifs
    · exact .refl _
    · exact (ih.cons last).trans (.swap entry last front)

lemma pairwise_place (h : entries.Pairwise fun a b => Before b a) (hne : ∀ e ∈ entries, e.1 ≠ entry.1) :
    (place entry entries).Pairwise fun a b => Before b a := by
  induction entries with
  | nil => exact List.pairwise_singleton _ _
  | cons last front ih =>
    obtain ⟨hlast, hfront⟩ := List.pairwise_cons.1 h
    obtain ⟨hnelast, hnefront⟩ := List.forall_mem_cons.1 hne
    rw [place]
    split_ifs with hprecedes
    · have hbefore : Before last entry := precedes_iff.1 hprecedes
      refine List.pairwise_cons.2 ⟨List.forall_mem_cons.2 ⟨hbefore, fun e he => ?_⟩, h⟩
      exact (hlast e he).trans hbefore
    · have hbefore : Before entry last := (before_or_before hnelast).resolve_left fun hlt =>
        hprecedes (precedes_iff.2 hlt)
      refine List.pairwise_cons.2 ⟨fun e he => ?_, ih hfront hnefront⟩
      rcases List.mem_cons.1 ((perm_place entry front).mem_iff.1 he) with rfl | he
      · exact hbefore
      · exact hlast e he

lemma sort_concat (entries : List (String × α)) (entry : String × α) :
    sort (entries ++ [entry]) = (place entry (sort entries).reverse).reverse := by
  rw [sort, List.foldl_append, sort, List.reverse_reverse]
  rfl

lemma perm_sort (entries : List (String × α)) : (sort entries).Perm entries := by
  induction entries using List.reverseRecOn with
  | nil => exact .refl _
  | append_singleton entries entry ih =>
    rw [sort_concat]
    calc
      (place entry (sort entries).reverse).reverse.Perm (place entry (sort entries).reverse) := List.reverse_perm _
      List.Perm _ (entry :: (sort entries).reverse) := perm_place entry _
      List.Perm _ (entry :: entries) := ((List.reverse_perm _).trans ih).cons entry
      List.Perm _ (entries ++ [entry]) := (List.perm_append_singleton entry entries).symm

lemma pairwise_sort (h : (entries.map Prod.fst).Nodup) : (sort entries).Pairwise Before := by
  induction entries using List.reverseRecOn with
  | nil => exact .nil
  | append_singleton entries entry ih =>
    rw [List.map_append, List.nodup_append] at h
    obtain ⟨hentries, -, hdisjoint⟩ := h
    rw [sort_concat, List.pairwise_reverse]
    refine pairwise_place (List.pairwise_reverse.2 (ih hentries)) fun e he => ?_
    have hmem : e ∈ entries := (perm_sort entries).mem_iff.1 (List.mem_reverse.1 he)
    exact hdisjoint e.1 (List.mem_map_of_mem hmem) entry.1 List.mem_cons_self

end Sorting

section Search

lemma mem_take_of_before {n : Nat} (h : entries.Pairwise Before) (hmem : entry ∈ entries) (hn : n < entries.length)
    (hbefore : Before entry entries[n]) : entry ∈ entries.take n := by
  rw [← List.take_append_drop n entries] at h hmem
  rw [List.drop_eq_getElem_cons hn] at h hmem
  obtain ⟨-, hback, -⟩ := List.pairwise_append.1 h
  rcases List.mem_append.1 hmem with hfront | hmem
  · exact hfront
  rcases List.mem_cons.1 hmem with heq | hmem
  · exact absurd (congrArg Prod.fst heq) hbefore.ne
  · exact absurd rfl (hbefore.trans (List.rel_of_pairwise_cons hback hmem)).ne

lemma mem_drop_of_not_before {n : Nat} (h : entries.Pairwise Before) (hmem : entry ∈ entries) (hn : n < entries.length)
    (hbefore : ¬ Before entry entries[n]) : entry ∈ entries.drop n := by
  rw [← List.take_append_drop n entries] at h hmem
  obtain ⟨-, -, hacross⟩ := List.pairwise_append.1 h
  refine (List.mem_append.1 hmem).resolve_left fun hfront => hbefore (hacross entry hfront _ ?_)
  rw [List.drop_eq_getElem_cons hn]
  exact List.mem_cons_self

lemma mem_of_mem_narrow {fuel : Nat} (h : entry ∈ narrow word fuel entries) : entry ∈ entries := by
  fun_induction narrow word fuel entries with
  | case1 fuel a b rest entries half hhalf hgt ih => exact List.mem_of_mem_take (ih h)
  | case2 fuel a b rest entries half hhalf hle ih => exact List.mem_of_mem_drop (ih h)
  | case3 fuel entries hfew => exact h

lemma length_narrow_le {fuel : Nat} (h : entries.length ≤ fuel + 1) : (narrow word fuel entries).length ≤ 1 := by
  fun_induction narrow word fuel entries with
  | case1 fuel a b rest entries half hhalf hgt ih =>
    have htwo : 2 ≤ entries.length := Nat.le_add_left 2 rest.length
    have hlength : entries.length ≤ fuel + 2 := h
    refine ih ?_
    rw [List.length_take]
    omega
  | case2 fuel a b rest entries half hhalf hle ih =>
    have htwo : 2 ≤ entries.length := Nat.le_add_left 2 rest.length
    have hlength : entries.length ≤ fuel + 2 := h
    refine ih ?_
    rw [List.length_drop]
    omega
  | case3 fuel entries hfew =>
    cases fuel with
    | zero => exact h
    | succ fuel =>
      match entries with
      | [] => exact Nat.zero_le 1
      | [_] => exact Nat.le_refl 1
      | a :: b :: rest => exact (hfew fuel a b rest rfl rfl).elim

lemma mem_narrow {fuel : Nat} (h : entries.Pairwise Before) (hmem : (word, v) ∈ entries) :
    (word, v) ∈ narrow word fuel entries := by
  fun_induction narrow word fuel entries with
  | case1 fuel a b rest entries half hhalf hgt ih =>
    have hfront := mem_take_of_before h hmem hhalf (Std.OrientedCmp.gt_iff_lt.1 hgt)
    have hle : half ≤ entries.length - half := by omega
    exact ih (h.sublist (List.take_sublist _ _)) (List.take_subset_take_left entries hle hfront)
  | case2 fuel a b rest entries half hhalf hle ih =>
    have hback := mem_drop_of_not_before h hmem hhalf fun hlt => hle (Std.OrientedCmp.gt_iff_lt.2 hlt)
    exact ih (h.sublist (List.drop_sublist _ _)) hback
  | case3 fuel entries hfew => exact hmem

lemma find?_eq_some_iff (h : entries.Pairwise Before) : find? word entries = some v ↔ (word, v) ∈ entries := by
  have hlength : (narrow word entries.length entries).length ≤ 1 := length_narrow_le (Nat.le_succ _)
  unfold find?
  constructor
  · intro hfind
    split at hfind
    · next entry rest hnarrow =>
      obtain ⟨heq, hv⟩ := Option.ite_none_right_eq_some.1 hfind
      obtain rfl := bytes_injective (Std.compare_eq_iff_eq.1 heq)
      obtain rfl := Option.some.inj hv
      exact mem_of_mem_narrow (hnarrow ▸ List.mem_cons_self)
    · cases hfind
  · intro hmem
    have hnarrow : (word, v) ∈ narrow word entries.length entries := mem_narrow h hmem
    obtain ⟨entry, heq⟩ := List.length_eq_one_iff.1 (Nat.le_antisymm hlength (List.length_pos_of_mem hnarrow))
    rw [heq] at hnarrow ⊢
    obtain rfl := List.mem_singleton.1 hnarrow
    exact if_pos (Std.compare_eq_iff_eq.2 rfl)

/-- What a table gives for a word is found in the sorted table, if its words are different. -/
lemma find?_sort_eq_some_iff (h : (entries.map Prod.fst).Nodup) :
    find? word (sort entries) = some v ↔ (word, v) ∈ entries := by
  rw [find?_eq_some_iff (pairwise_sort h), (perm_sort entries).mem_iff]

end Search

end Dictionary

namespace Token

variable {word : String} {k : Token}

lemma keyword?_eq_some_iff : keyword? word = some k ↔ (word, k) ∈ keywords :=
  Dictionary.find?_sort_eq_some_iff (by decide)

lemma keyword?_eq_none_iff : keyword? word = none ↔ ∀ e ∈ keywords, e.1 ≠ word := by
  rw [Option.eq_none_iff_forall_ne_some]
  constructor
  · rintro h ⟨_, k⟩ he rfl
    exact h k (keyword?_eq_some_iff.2 he)
  · intro h k hk
    exact h _ (keyword?_eq_some_iff.1 hk) rfl

lemma ofWord_of_mem_keywords (h : (word, k) ∈ keywords) : ofWord word.toList = k := by
  rw [ofWord, String.ofList_toList, keyword?_eq_some_iff.2 h]

lemma ofWord_of_prefix {start w : List Char} (h : ∀ e ∈ keywords, start.isPrefixOf e.1.toList = false) :
    ofWord (start ++ w) = (local? (start ++ w)).getD (.ident (String.ofList (start ++ w))) := by
  have hkeyword : keyword? (String.ofList (start ++ w)) = none := by
    refine keyword?_eq_none_iff.2 fun e he heq => ?_
    have hstart := h e he
    rw [heq, String.toList_ofList, List.isPrefixOf_iff_prefix.2 (List.prefix_append _ _)] at hstart
    exact Bool.false_ne_true hstart.symm
  rw [ofWord, hkeyword]

lemma mem_keywords_binOp (op : BinOp) : (op.name, .binOp op) ∈ keywords :=
  List.mem_append_left _ (List.mem_append_right _ (List.mem_map_of_mem op.mem_all))

lemma mem_keywords_unOp (op : UnOp) : (op.name, .unOp op) ∈ keywords :=
  List.mem_append_right _ (List.mem_map_of_mem op.mem_all)

end Token

end BlockIR
