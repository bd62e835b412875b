import BlockIR.Proofs.Keywords
import BlockIR.Proofs.Literals

/-!
# Tokens of texts in a row

Which tokens a text has does not depend on places, and mostly not on what stands around it. A closed text
has its tokens before any text; an open text only before one that cannot continue a word or a number.
-/

namespace BlockIR

namespace Token

/-- The text after whitespace and comments; the flag says that the text begins inside a comment. -/
def afterLayout : Bool → List Char → List Char
  | _, [] => []
  | true, c :: cs => afterLayout (c ≠ '\n') cs
  | false, c :: cs =>
    if isSpace c then afterLayout false cs
    else if c = '/' ∧ cs.head? = some '/' then afterLayout true cs
    else c :: cs

/-- The tokens of a text without their places, at most as many as the fuel says. -/
def scanAll : Nat → List Char → List Token
  | 0, _ => []
  | fuel + 1, cs =>
    match afterLayout false cs with
    | [] => []
    | c :: rest => (scan c rest).1 :: scanAll fuel (rest.drop (scan c rest).2.length)

lemma skipLayout_snd (inComment : Bool) (p : Cursor) (cs : List Char) :
    (Lexeme.skipLayout inComment p cs).2 = afterLayout inComment cs := by
  induction cs generalizing inComment p with
  | nil =>
    cases inComment
    · rfl
    · rfl
  | cons c cs ih =>
    cases inComment with
    | true => exact ih _ _
    | false =>
      simp only [Lexeme.skipLayout, afterLayout]
      split
      · exact ih _ _
      · split
        · exact ih _ _
        · rfl

lemma map_token_scanFrom (fuel : Nat) (p : Cursor) (cs : List Char) :
    (Lexeme.scanFrom fuel p cs).map (·.token) = scanAll fuel cs := by
  induction fuel generalizing p cs with
  | zero => rfl
  | succ fuel ih =>
    have h := skipLayout_snd false p cs
    rw [Lexeme.scanFrom, scanAll, ← h]
    rcases Lexeme.skipLayout false p cs with ⟨q, _ | ⟨c, rest⟩⟩
    · rfl
    · rw [List.map_cons, ih]

lemma length_afterLayout_le (inComment : Bool) (cs : List Char) :
    (afterLayout inComment cs).length ≤ cs.length := by
  induction cs generalizing inComment with
  | nil =>
    cases inComment
    · exact Nat.le_refl _
    · exact Nat.le_refl _
  | cons c cs ih =>
    have htail := ih false
    have hcomment := ih true
    cases inComment with
    | true => exact Nat.le_succ_of_le (ih _)
    | false =>
      simp only [afterLayout]
      split
      · exact Nat.le_succ_of_le htail
      · split
        · exact Nat.le_succ_of_le hcomment
        · exact Nat.le_refl _

lemma scanAll_add {n : Nat} {cs : List Char} (h : cs.length ≤ n) (k : Nat) :
    scanAll (n + k) cs = scanAll n cs := by
  induction n generalizing cs with
  | zero =>
    have hnil : cs = [] := List.length_eq_zero_iff.1 (Nat.le_zero.1 h)
    subst hnil
    cases k
    · rfl
    · rfl
  | succ n ih =>
    have hlen := length_afterLayout_le false cs
    rw [Nat.succ_add, scanAll, scanAll]
    cases hrest : afterLayout false cs with
    | nil => rfl
    | cons c rest =>
      rw [hrest, List.length_cons] at hlen
      have hdrop : (rest.drop (scan c rest).2.length).length ≤ n := by
        rw [List.length_drop]
        omega
      exact congrArg _ (ih hdrop)

/-- The text has these tokens, whatever follows it. -/
def Closed (s : String) (ks : List Token) : Prop :=
  ∀ n rest, scanAll (n + ks.length) (s.toList ++ rest) = ks ++ scanAll n rest

/-- The text is at its end, or begins with a character that continues no word and no number. -/
def breaks : List Char → Bool
  | [] => true
  | c :: _ => !isWordChar c && c ≠ '.'

/-- The text has these tokens if a break follows it. -/
def Open (s : String) (ks : List Token) : Prop :=
  ∀ n rest, breaks rest → scanAll (n + ks.length) (s.toList ++ rest) = ks ++ scanAll n rest

section Rows

variable {s s' : String} {ks ks' : List Token}

lemma closed_empty : Closed "" [] := fun _ _ => rfl

lemma Closed.open (h : Closed s ks) : Open s ks := fun n rest _ => h n rest

lemma Closed.append (h : Closed s ks) (h' : Closed s' ks') : Closed (s ++ s') (ks ++ ks') := by
  intro n rest
  have hfuel : n + (ks ++ ks').length = n + ks'.length + ks.length := by
    rw [List.length_append]
    omega
  rw [hfuel, String.toList_append, List.append_assoc, h, h', List.append_assoc]

lemma Closed.append_open (h : Closed s ks) (h' : Open s' ks') : Open (s ++ s') (ks ++ ks') := by
  intro n rest hrest
  have hfuel : n + (ks ++ ks').length = n + ks'.length + ks.length := by
    rw [List.length_append]
    omega
  rw [hfuel, String.toList_append, List.append_assoc, h, h' _ _ hrest, List.append_assoc]

/-- An open text before a closed one that begins with a break. -/
lemma Open.append_closed (h : Open s ks) (h' : Closed s' ks')
    (hbreak : ∀ rest, breaks (s'.toList ++ rest)) : Closed (s ++ s') (ks ++ ks') := by
  intro n rest
  have hfuel : n + (ks ++ ks').length = n + ks'.length + ks.length := by
    rw [List.length_append]
    omega
  rw [hfuel, String.toList_append, List.append_assoc, h _ _ (hbreak rest), h', List.append_assoc]

lemma Open.tokens_ofText (h : Open s ks) : (Lexeme.ofText s).map (·.token) = ks := by
  have hend : ∀ n, scanAll n [] = [] := by
    intro n
    cases n
    · rfl
    · rfl
  have hscan := h s.toList.length [] rfl
  rw [hend, List.append_nil, List.append_nil, scanAll_add (Nat.le_refl _)] at hscan
  rw [Lexeme.ofText, map_token_scanFrom, hscan]

end Rows

section Single

lemma scanAll_cons {n : Nat} {c : Char} {cs : List Char} (hspace : isSpace c = false) (hslash : c ≠ '/') :
    scanAll (n + 1) (c :: cs) = (scan c cs).1 :: scanAll n (cs.drop (scan c cs).2.length) := by
  have hlayout : afterLayout false (c :: cs) = c :: cs := by
    simp only [afterLayout, hspace, hslash, Bool.false_eq_true, false_and, if_false]
  rw [scanAll, hlayout]

variable {s : String} {c : Char} {cs : List Char} {k : Token}

lemma closed_of_scan (hs : s.toList = c :: cs) (hspace : isSpace c = false) (hslash : c ≠ '/')
    (hscan : ∀ rest, scan c (cs ++ rest) = (k, cs)) : Closed s [k] := by
  intro n rest
  rw [hs, List.length_singleton, List.cons_append, scanAll_cons hspace hslash, hscan, List.drop_left]
  rfl

lemma open_of_scan (hs : s.toList = c :: cs) (hspace : isSpace c = false) (hslash : c ≠ '/')
    (hscan : ∀ rest, breaks rest → scan c (cs ++ rest) = (k, cs)) : Open s [k] := by
  intro n rest hrest
  rw [hs, List.length_singleton, List.cons_append, scanAll_cons hspace hslash, hscan rest hrest,
    List.drop_left]
  rfl

end Single

section Words

/-- A character that begins a word, and characters that continue it. -/
def IsWord (w : List Char) : Prop := ∃ c cs, w = c :: cs ∧ isWordStart c ∧ ∀ d ∈ cs, isWordChar d

lemma not_isWordChar_of_breaks {rest : List Char} (h : breaks rest) :
    ∀ d ∈ rest.head?, isWordChar d = false := by
  intro d hd
  cases rest with
  | nil => cases hd
  | cons e rest =>
    cases hd
    simp only [breaks, Bool.and_eq_true, Bool.not_eq_true'] at h
    exact h.1

lemma isWordChar_of_isWordStart {c : Char} (h : isWordStart c) : isWordChar c := by
  simp only [isWordStart, Bool.or_eq_true, isWordChar, Char.isAlphanum] at h ⊢
  rcases h with h | h
  · exact .inl (.inl h)
  · exact .inr h

lemma mark?_eq_none {c : Char} (h : isWordChar c) : mark? c = none := by
  unfold mark?
  split <;> first | rfl | exact absurd h (by decide)

lemma isSpace_eq_false {c : Char} (h : isWordChar c) : isSpace c = false := by
  cases hspace : isSpace c with
  | false => rfl
  | true =>
    simp only [isSpace, Bool.or_eq_true, decide_eq_true_eq] at hspace
    rcases hspace with (((rfl | rfl) | rfl) | rfl) | rfl <;> exact absurd h (by decide)

lemma not_isDigit_of_isWordStart {c : Char} (h : isWordStart c) : c.isDigit = false := by
  cases hdigit : c.isDigit with
  | false => rfl
  | true =>
    exfalso
    simp only [isWordStart, Bool.or_eq_true, decide_eq_true_eq] at h
    rcases h with h | rfl
    · have hnine : c.val ≤ '9'.val := of_decide_eq_true ((Bool.and_eq_true _ _).mp hdigit).2
      rcases (Bool.or_eq_true _ _).mp h with hupper | hlower
      · have hle : 'A'.val ≤ c.val := (of_decide_eq_true hupper).1
        exact absurd (UInt32.le_trans hle hnine) (by decide)
      · have hle : 'a'.val ≤ c.val := of_decide_eq_true ((Bool.and_eq_true _ _).mp hlower).1
        exact absurd (UInt32.le_trans hle hnine) (by decide)
    · exact absurd hdigit (by decide)

lemma ne_of_isWordChar {c d : Char} (h : isWordChar c) (hd : isWordChar d = false) : c ≠ d := by
  rintro rfl
  exact Bool.false_ne_true (hd.symm.trans h)

lemma scan_word {c : Char} {cs : List Char} (h : isWordStart c) :
    scan c cs = (ofWord (c :: cs.takeWhile isWordChar), cs.takeWhile isWordChar) := by
  have hchar := isWordChar_of_isWordStart h
  have hdigit := not_isDigit_of_isWordStart h
  have hzero : c ≠ '0' := by
    rintro rfl
    exact Bool.false_ne_true h
  simp only [scan, mark?_eq_none hchar, ne_of_isWordChar hchar (by decide : isWordChar '"' = false),
    ne_of_isWordChar hchar (by decide : isWordChar '-' = false), hzero, hdigit, h, Bool.false_eq_true,
    if_false, if_true]

lemma open_word {s : String} {k : Token} (h : IsWord s.toList) (hk : ofWord s.toList = k) : Open s [k] := by
  obtain ⟨c, cs, hs, hc, hcs⟩ := h
  have hchar := isWordChar_of_isWordStart hc
  refine open_of_scan hs (isSpace_eq_false hchar) (ne_of_isWordChar hchar (by decide)) ?_
  intro rest hrest
  rw [scan_word hc, takeWhile_append_of_head hcs (not_isWordChar_of_breaks hrest), ← hs, hk]

lemma isWord_of_mem_keywords {s : String} {k : Token} (h : (s, k) ∈ keywords) : IsWord s.toList := by
  have hall : ∀ e ∈ keywords, e.1.toList.head?.any isWordStart ∧ e.1.toList.tail.all isWordChar := by decide
  obtain ⟨hhead, htail⟩ := hall _ h
  dsimp only at hhead htail
  cases hchars : s.toList with
  | nil =>
    rw [hchars] at hhead
    cases hhead
  | cons c cs =>
    rw [hchars] at hhead htail
    exact ⟨c, cs, rfl, hhead, List.all_eq_true.1 htail⟩

lemma open_keyword {s : String} {k : Token} (h : (s, k) ∈ keywords) : Open s [k] :=
  open_word (isWord_of_mem_keywords h) (ofWord_of_mem_keywords h)

end Words

section Identifiers

variable {name : String} {c : Char} {cs w : List Char}

lemma keyword?_ne_ident {word : String} : keyword? word ≠ some (.ident name) := by
  have hall : ∀ e ∈ keywords, (match e.2 with | .ident _ => false | _ => true) = true := by decide
  intro h
  exact Bool.false_ne_true (hall _ (keyword?_eq_some_iff.1 h))

lemma local?_ne_ident : local? w ≠ some (.ident name) := by
  unfold local?
  split <;> simp only [ne_eq, Option.map_eq_some_iff, reduceCtorEq, and_false, exists_false,
    not_false_eq_true]

lemma ofWord_eq_ident (h : ofWord w = .ident name) : String.ofList w = name := by
  unfold ofWord at h
  split at h
  · next k hk => exact absurd (hk.trans (congrArg some h)) keyword?_ne_ident
  · cases hlocal : local? w with
    | none =>
      rw [hlocal] at h
      exact Token.ident.inj h
    | some k =>
      rw [hlocal] at h
      exact absurd (hlocal.trans (congrArg some h)) local?_ne_ident

lemma scanNumber_ne_ident : (scanNumber c cs).1 ≠ .ident name := by
  unfold scanNumber
  dsimp only
  split <;> exact Token.noConfusion

lemma scanRadix_ne_ident : (scanRadix c cs).1 ≠ .ident name := by
  unfold scanRadix
  dsimp only
  split <;> exact Token.noConfusion

lemma scanString_ne_ident : (scanString cs).1 ≠ .ident name := by
  unfold scanString
  dsimp only
  split <;> exact Token.noConfusion

lemma scanMinus_ne_ident : (scanMinus cs).1 ≠ .ident name := by
  unfold scanMinus
  split
  · exact Token.noConfusion
  · split
    · exact scanNumber_ne_ident
    · exact Token.noConfusion
  · exact Token.noConfusion

lemma scanZero_ne_ident : (scanZero cs).1 ≠ .ident name := by
  unfold scanZero
  split
  · split
    · exact scanRadix_ne_ident
    · exact scanNumber_ne_ident
  · exact scanNumber_ne_ident

lemma isWordStart_of_scan (h : (scan c cs).1 = .ident name) : isWordStart c := by
  unfold scan at h
  split at h
  · exact Token.noConfusion h
  · split at h
    · exact absurd h scanString_ne_ident
    · split at h
      · exact absurd h scanMinus_ne_ident
      · split at h
        · exact absurd h scanZero_ne_ident
        · split at h
          · exact absurd h scanNumber_ne_ident
          · split at h
            · next hc => exact hc
            · exact Token.noConfusion h

/-- The text is one identifier. -/
def IsIdent (name : String) : Prop := (Lexeme.ofText name).map (·.token) = [.ident name]

instance : Decidable (IsIdent name) := inferInstanceAs (Decidable (_ = _))

lemma IsIdent.word (h : IsIdent name) : IsWord name.toList ∧ ofWord name.toList = .ident name := by
  unfold IsIdent at h
  rw [Lexeme.ofText, map_token_scanFrom] at h
  cases hfuel : name.toList.length with
  | zero =>
    rw [hfuel] at h
    cases h
  | succ n =>
    rw [hfuel, scanAll] at h
    cases hrest : afterLayout false name.toList with
    | nil =>
      rw [hrest] at h
      cases h
    | cons c cs =>
      rw [hrest] at h
      have hhead := List.head_eq_of_cons_eq h
      have hc := isWordStart_of_scan hhead
      rw [scan_word hc] at hhead
      have hname : name.toList = c :: cs.takeWhile isWordChar := by
        rw [← ofWord_eq_ident hhead, String.toList_ofList]
      rw [hname]
      exact ⟨⟨c, _, rfl, hc, fun d hd => List.all_eq_true.1 List.all_takeWhile d hd⟩, hhead⟩

lemma IsIdent.open (h : IsIdent name) : Open name [.ident name] := open_word h.word.1 h.word.2

end Identifiers

end Token

end BlockIR
