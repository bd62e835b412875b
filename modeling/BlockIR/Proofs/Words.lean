import BlockIR.Proofs.IntegerLiterals
import BlockIR.Proofs.Joining
import BlockIR.Proofs.RoundTrip.Scanning
import Mathlib.Data.List.Nodup

/-!
# Words

A word is one token, up to the first character that cannot continue it. It is a keyword if the table of keywords has
it, a local if it is the name of a kind of locals with an index of 32 bits, and an identifier in all other cases.
-/

namespace BlockIR

namespace Token

/-- The names of the kinds of locals, and the locals of each kind. -/
def localKinds : List (String × (UInt32 → Token)) := [("arg", arg), ("var", var), ("tmp", temp)]

/-- A word is the name of a kind of locals and behind it digits that spell a number. -/
def IsNumbered (kind : String) (n : Nat) (w : List Char) : Prop :=
  ∃ ds, w = kind.toList ++ ds ∧ ds ≠ [] ∧ (∀ c ∈ ds, c.isDigit) ∧ Numeral.spelled 10 ds = n

/-- Which token a word is. The number of a local is below 2 ^ 32; a word with a greater number is an identifier. -/
structure IsOfWord (k : Token) (w : List Char) : Prop where
  keyword_iff : ∀ e ∈ keywords, k = e.2 ↔ e.1.toList = w
  local_iff : ∀ e ∈ localKinds, ∀ i, k = e.2 i ↔ IsNumbered e.1 i.toNat w
  ident_iff : ∀ name, k = ident name ↔ name.toList = w ∧ (∀ e ∈ keywords, e.1.toList ≠ w) ∧
    ∀ e ∈ localKinds, ∀ n < 2 ^ 32, ¬ IsNumbered e.1 n w
  ident_of_le : ∀ e ∈ localKinds, ∀ n, 2 ^ 32 ≤ n → IsNumbered e.1 n w → k = ident (String.ofList w)

section Locals

variable {e : String × (UInt32 → Token)} {w : List Char}

lemma isNumbered_iff {kind : String} {n : Nat} :
    IsNumbered kind n w ↔ ∃ ds, w = kind.toList ++ ds ∧ Numeral.IsRun 10 ds ∧ Numeral.value 10 ds = n := by
  have hradix : 10 ∈ [2, 8, 10, 16] := by decide
  unfold IsNumbered
  refine exists_congr fun ds => and_congr_right fun _ => ?_
  rw [← and_assoc, ← Numeral.isRun_ten_iff]
  refine and_congr_right fun hrun => ?_
  rw [Numeral.value_eq_spelled hradix ((Numeral.isRun_iff hradix).1 hrun).2]

lemma IsNumbered.unique {e' : String × (UInt32 → Token)} {n n' : Nat} (he : e ∈ localKinds) (he' : e' ∈ localKinds)
    (h : IsNumbered e.1 n w) (h' : IsNumbered e'.1 n' w) : n = n' := by
  have hlength : ∀ e ∈ localKinds, e.1.toList.length = 3 := by decide
  obtain ⟨ds, rfl, -, -, rfl⟩ := h
  obtain ⟨ds', hw, -, -, rfl⟩ := h'
  rw [(List.append_inj hw ((hlength e he).trans (hlength e' he').symm)).2]

lemma localIndex?_eq_some_iff {ds : List Char} {i : UInt32} :
    localIndex? ds = some i ↔ Numeral.IsRun 10 ds ∧ Numeral.value 10 ds = i.toNat := by
  refine ⟨localIndex?_eq_some, fun ⟨hrun, hvalue⟩ => ?_⟩
  have hbelow : Numeral.below? UInt32.size 10 ds = some i.toNat :=
    Option.filter_eq_some_iff.2 ⟨Numeral.value?_eq_some_iff.2 ⟨hrun, hvalue⟩, decide_eq_true i.toNat_lt⟩
  rw [localIndex?, hbelow, Option.map_some, UInt32.ofNat_toNat]

lemma local?_append (he : e ∈ localKinds) (ds : List Char) : local? (e.1.toList ++ ds) = (localIndex? ds).map e.2 := by
  simp only [localKinds, List.mem_cons, List.not_mem_nil, or_false] at he
  rcases he with rfl | rfl | rfl <;> rfl

lemma local?_eq_some_iff {k : Token} :
    local? w = some k ↔ ∃ e ∈ localKinds, ∃ i, k = e.2 i ∧ IsNumbered e.1 i.toNat w := by
  simp only [isNumbered_iff]
  constructor
  · intro h
    unfold local? at h
    split at h
    · obtain ⟨i, hi, rfl⟩ := Option.map_eq_some_iff.1 h
      exact ⟨("arg", arg), .head _, i, rfl, _, rfl, localIndex?_eq_some hi⟩
    · obtain ⟨i, hi, rfl⟩ := Option.map_eq_some_iff.1 h
      exact ⟨("var", var), .tail _ (.head _), i, rfl, _, rfl, localIndex?_eq_some hi⟩
    · obtain ⟨i, hi, rfl⟩ := Option.map_eq_some_iff.1 h
      exact ⟨("tmp", temp), .tail _ (.tail _ (.head _)), i, rfl, _, rfl, localIndex?_eq_some hi⟩
    · cases h
  · rintro ⟨e, he, i, rfl, ds, rfl, hds⟩
    rw [local?_append he, localIndex?_eq_some_iff.2 hds]
    rfl

lemma ofWord_of_isNumbered {n : Nat} (he : e ∈ localKinds) (h : IsNumbered e.1 n w) :
    ofWord w = (local? w).getD (ident (String.ofList w)) := by
  have hkeywords : ∀ e ∈ localKinds, ∀ e' ∈ keywords, e.1.toList.isPrefixOf e'.1.toList = false := by decide
  obtain ⟨ds, rfl, -⟩ := h
  exact ofWord_of_prefix (hkeywords e he)

end Locals

section Words

variable {w : List Char}

lemma ofWord_eq_keyword_iff {e : String × Token} (he : e ∈ keywords) : ofWord w = e.2 ↔ e.1.toList = w := by
  constructor
  · intro h
    have hspelled := spelled_ofWord w
    rw [h, spelled_iff_of_mem_keywords he] at hspelled
    have hnodup : (keywords.map Prod.snd).Nodup := by decide
    have heq := List.inj_on_of_nodup_map hnodup he hspelled rfl
    rw [heq, String.toList_ofList]
  · rintro rfl
    exact ofWord_of_mem_keywords he

lemma ofWord_eq_local_iff {e : String × (UInt32 → Token)} (he : e ∈ localKinds) (i : UInt32) :
    ofWord w = e.2 i ↔ IsNumbered e.1 i.toNat w := by
  constructor
  · intro h
    have hspelled := spelled_ofWord w
    rw [h] at hspelled
    rw [isNumbered_iff]
    simp only [localKinds, List.mem_cons, List.not_mem_nil, or_false] at he
    rcases he with rfl | rfl | rfl <;> exact hspelled
  · intro h
    rw [ofWord_of_isNumbered he h, local?_eq_some_iff.2 ⟨e, he, i, rfl, h⟩]
    rfl

lemma ofWord_eq_ident_iff {name : String} : ofWord w = ident name ↔
    name.toList = w ∧ (∀ e ∈ keywords, e.1.toList ≠ w) ∧ ∀ e ∈ localKinds, ∀ n < 2 ^ 32, ¬ IsNumbered e.1 n w := by
  constructor
  · intro h
    refine ⟨?_, fun e he heq => ?_, fun e he n hn hnumbered => ?_⟩
    · rw [← ofWord_eq_ident h, String.toList_ofList]
    · have hkeyword := (ofWord_eq_keyword_iff he).2 heq
      exact keyword?_ne_ident ((keyword?_eq_some_iff.2 he).trans (congrArg some (hkeyword.symm.trans h)))
    · have hi : (UInt32.ofNat n).toNat = n := UInt32.toNat_ofNat_of_lt' hn
      rw [← hi] at hnumbered
      have hlocal := (ofWord_eq_local_iff he _).2 hnumbered
      have hsome := local?_eq_some_iff.2 ⟨e, he, _, hlocal, hnumbered⟩
      exact local?_ne_ident (hsome.trans (congrArg some h))
  · rintro ⟨rfl, hkeywords, hlocals⟩
    have hkeyword : keyword? (String.ofList name.toList) = none := by
      rw [String.ofList_toList]
      exact keyword?_eq_none_iff.2 fun e he heq => hkeywords e he (congrArg String.toList heq)
    have hlocal : local? name.toList = none := by
      refine Option.eq_none_iff_forall_ne_some.2 fun k hk => ?_
      obtain ⟨e, he, i, -, hnumbered⟩ := local?_eq_some_iff.1 hk
      exact hlocals e he i.toNat i.toNat_lt hnumbered
    rw [ofWord, hkeyword, hlocal, String.ofList_toList]
    rfl

lemma ofWord_of_le {e : String × (UInt32 → Token)} {n : Nat} (he : e ∈ localKinds) (hn : 2 ^ 32 ≤ n)
    (h : IsNumbered e.1 n w) : ofWord w = ident (String.ofList w) := by
  have hlocal : local? w = none := by
    refine Option.eq_none_iff_forall_ne_some.2 fun k hk => ?_
    obtain ⟨e', he', i, -, hnumbered⟩ := local?_eq_some_iff.1 hk
    have hi : n = i.toNat := h.unique he he' hnumbered
    have hlt : i.toNat < 2 ^ 32 := i.toNat_lt
    omega
  rw [ofWord_of_isNumbered he h, hlocal]
  rfl

lemma isOfWord_ofWord (w : List Char) : (ofWord w).IsOfWord w where
  keyword_iff _ he := ofWord_eq_keyword_iff he
  local_iff _ he := ofWord_eq_local_iff he
  ident_iff _ := ofWord_eq_ident_iff
  ident_of_le _ he _ := ofWord_of_le he

lemma begins_of_isWordStart {c : Char} {rest : List Char} (hc : isWordStart c) : Begins c rest := by
  have hchar := isWordChar_of_isWordStart hc
  exact ⟨isSpace_eq_false hchar, fun h => ne_of_isWordChar hchar (by decide) h.1⟩

end Words

end Token

namespace Lexeme

/-- The tokens of a text that goes on from a place. A whole text goes on from the start. -/
def tokensFrom (p : Cursor) (cs : List Char) : List Lexeme := scanFrom cs.length p cs

lemma ofText_eq {source : String} {cs : List Char} (h : source.toList = cs) :
    ofText source = tokensFrom .start cs := h ▸ rfl

variable {gap w rest : List Char}

lemma tokensFrom_word (hgap : Layout false gap) (hw : Token.IsWord w)
    (hrest : ∀ c ∈ rest.head?, Token.isWordChar c = false) (p : Cursor) : tokensFrom p (gap ++ w ++ rest) =
      ⟨Token.ofWord w, .clamped (p.past gap).line ((p.past gap).before + 1) w.length⟩ ::
        tokensFrom (p.past (gap ++ w)) rest := by
  obtain ⟨c, tail, rfl, hc, htail⟩ := hw
  have hscan : Token.scan c (tail ++ rest) = (Token.ofWord (c :: tail), tail) := by
    rw [Token.scan_word hc, takeWhile_append_of_head htail hrest]
  have hscanned := scanned_scanFrom (p.past (gap ++ c :: tail)) (Nat.le_refl rest.length)
  exact (Scanned.token hgap (Token.begins_of_isWordStart hc) hscan hscanned).scanFrom_eq (Nat.le_refl _)

/-- Wherever a text goes on with a word behind layout, the word is one token up to the first character that cannot
continue it, and the tokens of the rest come after it. It is the token of a keyword just if it is in the table of
keywords. It is a local with an index just if it is the name of the kind of the local with one or more digits that
spell the index, and it is an identifier, which is the whole word, in all other cases. Digits of a number that does
not fit in 32 bits make no local. -/
theorem word_is_classified (hgap : Layout false gap) (hw : Token.IsWord w)
    (hrest : ∀ c ∈ rest.head?, Token.isWordChar c = false) :
    ∃ k : Token, k.IsOfWord w ∧ ∀ p, tokensFrom p (gap ++ w ++ rest) =
      ⟨k, .clamped (p.past gap).line ((p.past gap).before + 1) w.length⟩ :: tokensFrom (p.past (gap ++ w)) rest :=
  ⟨Token.ofWord w, Token.isOfWord_ofWord w, tokensFrom_word hgap hw hrest⟩

/-- The least number that is too great for an index, behind a comment. -/
theorem overflowing_word_is_ident :
    Layout false "// too great\n".toList ∧ Token.IsWord "var4294967296".toList ∧
      (∀ c ∈ [';'].head?, Token.isWordChar c = false) ∧
      (Token.ident "var4294967296").IsOfWord "var4294967296".toList ∧
      ofText "// too great\nvar4294967296;" =
        [⟨.ident "var4294967296", ⟨2, 1, 13⟩⟩, ⟨.mark .semi, ⟨2, 14, 1⟩⟩] := by
  have hgap : Layout false "// too great\n".toList := by
    have htext : "// too great\n".toList = '/' :: '/' :: " too great".toList ++ ['\n'] := by decide +kernel
    rw [htext]
    exact .comment (by decide +kernel) .nil
  have hw : Token.IsWord "var4294967296".toList := ⟨'v', _, rfl, rfl, List.all_eq_true.1 rfl⟩
  have hrest : ∀ c ∈ [';'].head?, Token.isWordChar c = false := by
    rintro _ ⟨⟩
    rfl
  have hdigits : "4294967296".toList.all Char.isDigit := by decide +kernel
  have hnumbered : Token.IsNumbered "var" 4294967296 "var4294967296".toList :=
    ⟨"4294967296".toList, by decide +kernel, by decide +kernel, List.all_eq_true.1 hdigits, by decide +kernel⟩
  obtain ⟨k, hk, htokens⟩ := word_is_classified hgap hw hrest
  obtain rfl : k = .ident "var4294967296" :=
    hk.ident_of_le ("var", .var) (.tail _ (.head _)) 4294967296 (by omega) hnumbered
  have htext : "// too great\nvar4294967296;".toList =
      "// too great\n".toList ++ "var4294967296".toList ++ [';'] := by decide +kernel
  refine ⟨hgap, hw, hrest, hk, ?_⟩
  rw [ofText_eq htext, htokens]
  decide +kernel

end Lexeme

end BlockIR
