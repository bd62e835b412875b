import BlockIR.Proofs.Keywords
import BlockIR.Proofs.Literals

/-!
# Where tokens stand

The tokens of a text stand at slices of it, one after another, with only whitespace and comments between them.
A token says what its slice spells, and its span says at which line and column the slice begins.
-/

namespace BlockIR

/-- Whitespace and comments. A comment goes on to the end of its line; the last one can go on to the end of the
text, if that is here. -/
inductive Layout (atEnd : Bool) : List Char → Prop
  | nil : Layout atEnd []
  | space {c : Char} {cs : List Char} (hc : Token.isSpace c) (h : Layout atEnd cs) : Layout atEnd (c :: cs)
  | comment {body cs : List Char} (hbody : '\n' ∉ body) (h : Layout atEnd cs) :
      Layout atEnd ('/' :: '/' :: body ++ '\n' :: cs)
  | lastComment {body : List Char} (hbody : '\n' ∉ body) (h : atEnd) : Layout atEnd ('/' :: '/' :: body)

def Mark.chars : Mark → List Char
  | hash => ['#']
  | curlyOpen => ['\x7b']
  | curlyClose => ['\x7d']
  | parenOpen => ['(']
  | parenClose => [')']
  | squareOpen => ['[']
  | squareClose => [']']
  | eq => ['=']
  | colon => [':']
  | semi => [';']
  | comma => [',']
  | arrow => ['-', '>']

namespace Token

/-- The name of a kind of locals, and digits with the value of the index. -/
def IsLocal (kind : String) (i : UInt32) (w : List Char) : Prop :=
  ∃ digits, w = kind.toList ++ digits ∧ Numeral.IsRun 10 digits ∧ Numeral.value 10 digits = i.toNat

/-- What the characters of a token are. The quotes of a string are among them. -/
def Spelled : Token → List Char → Prop
  | ident s, w | int s, w | uint s, w | float s, w | unknown s, w => s.toList = w
  | str s, w => '"' :: s.toList ++ ['"'] = w
  | arg i, w => IsLocal "arg" i w
  | var i, w => IsLocal "var" i w
  | temp i, w => IsLocal "tmp" i w
  | keyword k, w => (String.ofList w, keyword k) ∈ keywords
  | binOp op, w => (String.ofList w, binOp op) ∈ keywords
  | unOp op, w => (String.ofList w, unOp op) ∈ keywords
  | bool b, w => (String.ofList w, bool b) ∈ keywords
  | mark m, w => m.chars = w

/-- What a scanner finds behind a character: the further characters of a token that it begins. -/
def Finds (c : Char) (cs : List Char) (r : Token × List Char) : Prop := r.2 <+: cs ∧ r.1.Spelled (c :: r.2)

section Scanners

variable {c : Char} {cs w : List Char}

lemma prefix_exponentPart (cs : List Char) : exponentPart cs <+: cs := by
  unfold exponentPart
  split
  · next cs =>
    exact (List.prefix_cons_inj _).2 ((List.prefix_cons_inj _).2 (List.takeWhile_prefix _))
  · exact (List.prefix_cons_inj _).2 (List.takeWhile_prefix _)
  · exact List.nil_prefix

lemma prefix_of_drop_takeWhile {p : Char → Bool} {tail : List Char}
    (h : tail <+: cs.drop (cs.takeWhile p).length) : cs.takeWhile p ++ tail <+: cs := by
  obtain ⟨rest, hrest⟩ := h
  refine ⟨rest, ?_⟩
  rw [List.append_assoc, hrest]
  exact List.prefix_iff_eq_append.1 (List.takeWhile_prefix p)

lemma finds_scanNumber (c : Char) (cs : List Char) : Finds c cs (scanNumber c cs) := by
  unfold scanNumber
  dsimp only
  split
  · next cs' hpoint =>
    refine ⟨?_, String.toList_ofList⟩
    rw [List.append_assoc]
    refine prefix_of_drop_takeWhile ?_
    rw [hpoint]
    exact (List.prefix_cons_inj _).2 (prefix_of_drop_takeWhile (prefix_exponentPart _))
  · next rest hmark =>
    refine ⟨prefix_of_drop_takeWhile ?_, String.toList_ofList⟩
    rw [hmark]
    exact (List.prefix_cons_inj _).2 List.nil_prefix
  · exact ⟨List.takeWhile_prefix _, String.toList_ofList⟩

lemma finds_scanRadix (m : Char) (cs : List Char) : Finds '0' (m :: cs) (scanRadix m cs) := by
  unfold scanRadix
  dsimp only
  split
  · next rest hmark =>
    refine ⟨?_, String.toList_ofList⟩
    refine (List.prefix_cons_inj _).2 (prefix_of_drop_takeWhile ?_)
    rw [hmark]
    exact (List.prefix_cons_inj _).2 List.nil_prefix
  · exact ⟨(List.prefix_cons_inj _).2 (List.takeWhile_prefix _), String.toList_ofList⟩

lemma stringEnd_closed {n k : Nat} (h : stringEnd n cs = (true, k)) :
    ∃ body, k = n + body.length + 1 ∧ body ++ ['"'] <+: cs := by
  fun_induction stringEnd n cs with
  | case1 n => cases h
  | case2 n cs =>
    cases h
    exact ⟨[], rfl, (List.prefix_cons_inj _).2 List.nil_prefix⟩
  | case3 n cs => cases h
  | case4 n => cases h
  | case5 n c cs ih =>
    obtain ⟨body, hk, hbody⟩ := ih h
    refine ⟨'\\' :: c :: body, ?_, (List.prefix_cons_inj _).2 ((List.prefix_cons_inj _).2 hbody)⟩
    simp only [List.length_cons]
    omega
  | case6 n c cs _ _ _ _ ih =>
    obtain ⟨body, hk, hbody⟩ := ih h
    refine ⟨c :: body, ?_, (List.prefix_cons_inj _).2 hbody⟩
    simp only [List.length_cons]
    omega

lemma take_stringEnd_closed {n : Nat} (h : stringEnd 0 cs = (true, n)) :
    ∃ body, n = body.length + 1 ∧ cs.take n = body ++ ['"'] := by
  obtain ⟨body, hn, rest, rfl⟩ := stringEnd_closed h
  rw [Nat.zero_add] at hn
  refine ⟨body, hn, List.take_left' ?_⟩
  rw [List.length_append, List.length_singleton, hn]

lemma finds_scanString (cs : List Char) : Finds '"' cs (scanString cs) := by
  unfold scanString
  rcases hend : stringEnd 0 cs with ⟨closed, n⟩
  refine ⟨List.take_prefix n cs, ?_⟩
  cases closed with
  | false => exact String.toList_ofList
  | true =>
    obtain ⟨body, hn, htake⟩ := take_stringEnd_closed hend
    have hbody : (body ++ ['"']).take (n - 1) = body := List.take_left' (by omega)
    simp only [if_true, Spelled, htake, hbody, String.toList_ofList, List.cons_append]

lemma localIndex?_eq_some {digits : List Char} {i : UInt32} (h : localIndex? digits = some i) :
    Numeral.IsRun 10 digits ∧ Numeral.value 10 digits = i.toNat := by
  obtain ⟨n, hn, rfl⟩ := Option.map_eq_some_iff.1 h
  obtain ⟨hvalue, hlt⟩ := Option.filter_eq_some_iff.1 hn
  obtain ⟨hrun, rfl⟩ := Numeral.value?_eq_some_iff.1 hvalue
  exact ⟨hrun, (UInt32.toNat_ofNat_of_lt' (of_decide_eq_true hlt)).symm⟩

lemma spelled_of_local? {k : Token} (h : local? w = some k) : k.Spelled w := by
  unfold local? at h
  split at h
  · obtain ⟨i, hi, rfl⟩ := Option.map_eq_some_iff.1 h
    exact ⟨_, rfl, localIndex?_eq_some hi⟩
  · obtain ⟨i, hi, rfl⟩ := Option.map_eq_some_iff.1 h
    exact ⟨_, rfl, localIndex?_eq_some hi⟩
  · obtain ⟨i, hi, rfl⟩ := Option.map_eq_some_iff.1 h
    exact ⟨_, rfl, localIndex?_eq_some hi⟩
  · cases h

lemma spelled_iff_of_mem_keywords {s : String} {k : Token} (h : (s, k) ∈ keywords) :
    k.Spelled w ↔ (String.ofList w, k) ∈ keywords := by
  have hall : ∀ e ∈ keywords, (match e.2 with
      | .keyword _ | .binOp _ | .unOp _ | .bool _ => true
      | _ => false) = true := by decide
  have hk := hall _ h
  cases k with
  | keyword _ | binOp _ | unOp _ | bool _ => exact Iff.rfl
  | _ => cases hk

lemma spelled_ofWord (w : List Char) : (ofWord w).Spelled w := by
  unfold ofWord
  split
  · next k hk =>
    have hmem := keyword?_eq_some_iff.1 hk
    exact (spelled_iff_of_mem_keywords hmem).2 hmem
  · cases hlocal : local? w with
    | none => exact String.toList_ofList
    | some k => exact spelled_of_local? hlocal

lemma chars_of_mark? {m : Mark} (h : mark? c = some m) : m.chars = [c] := by
  unfold mark? at h
  split at h <;> cases h <;> rfl

lemma finds_scanMinus (cs : List Char) : Finds '-' cs (scanMinus cs) := by
  unfold scanMinus
  split
  · exact ⟨(List.prefix_cons_inj _).2 List.nil_prefix, rfl⟩
  · split
    · exact finds_scanNumber _ _
    · exact ⟨List.nil_prefix, rfl⟩
  · exact ⟨List.nil_prefix, rfl⟩

lemma finds_scanZero (cs : List Char) : Finds '0' cs (scanZero cs) := by
  unfold scanZero
  split
  · split
    · exact finds_scanRadix _ _
    · exact finds_scanNumber _ _
  · exact finds_scanNumber _ _

lemma finds_scan (c : Char) (cs : List Char) : Finds c cs (scan c cs) := by
  unfold scan
  split
  · next m hm => exact ⟨List.nil_prefix, chars_of_mark? hm⟩
  · split_ifs with hquote hminus hzero
    · exact hquote ▸ finds_scanString cs
    · exact hminus ▸ finds_scanMinus cs
    · exact hzero ▸ finds_scanZero cs
    · exact finds_scanNumber c cs
    · exact ⟨List.takeWhile_prefix _, spelled_ofWord _⟩
    · exact ⟨List.nil_prefix, String.toList_singleton c⟩

end Scanners

end Token

/-- A character that is neither whitespace nor the first of a comment begins a token. -/
def Token.Begins (c : Char) (cs : List Char) : Prop := isSpace c = false ∧ ¬(c = '/' ∧ cs.head? = some '/')

/-- How many characters stand behind the last line break. -/
def sinceBreak (cs : List Char) : Nat := (cs.reverse.takeWhile (· ≠ '\n')).length

namespace Cursor

lemma past_append (p : Cursor) (cs ds : List Char) : p.past (cs ++ ds) = (p.past cs).past ds := List.foldl_append

lemma past_start (cs : List Char) : start.past cs = ⟨1 + cs.count '\n', sinceBreak cs⟩ := by
  induction cs using List.reverseRecOn with
  | nil => rfl
  | append_singleton cs c ih =>
    have hsince : sinceBreak (cs ++ [c]) = if c = '\n' then 0 else sinceBreak cs + 1 := by
      simp only [sinceBreak, List.reverse_append, List.reverse_singleton, List.singleton_append,
        List.takeWhile_cons]
      by_cases hc : c = '\n' <;> simp [hc]
    rw [past_append, ih, hsince, List.count_append, List.count_singleton]
    show step _ c = _
    unfold step
    by_cases hc : c = '\n' <;> simp [hc, Nat.add_assoc]

end Cursor

namespace Lexeme

lemma skipLayout_comment {body : List Char} (hbody : '\n' ∉ body) (p : Cursor) (cs : List Char) :
    skipLayout true p (body ++ '\n' :: cs) = skipLayout false ((p.past body).step '\n') cs := by
  induction body generalizing p with
  | nil => rfl
  | cons c body ih =>
    have hstay : decide (c ≠ '\n') = true := decide_eq_true (List.ne_of_not_mem_cons hbody).symm
    rw [List.cons_append, skipLayout, hstay, ih (List.not_mem_of_not_mem_cons hbody)]
    rfl

lemma skipLayout_lastComment {body : List Char} (hbody : '\n' ∉ body) (p : Cursor) :
    skipLayout true p body = (p.past body, []) := by
  induction body generalizing p with
  | nil => rfl
  | cons c body ih =>
    have hstay : decide (c ≠ '\n') = true := decide_eq_true (List.ne_of_not_mem_cons hbody).symm
    rw [skipLayout, hstay, ih (List.not_mem_of_not_mem_cons hbody)]
    rfl

/-- What is passed over is layout, up to a token or to the end of the text. -/
lemma exists_layout (p : Cursor) (cs : List Char) :
    ∃ gap rest, cs = gap ++ rest ∧ skipLayout false p cs = (p.past gap, rest) ∧ Layout rest.isEmpty gap ∧
      ∀ c rest', rest = c :: rest' → Token.Begins c rest' := by
  induction hn : cs.length using Nat.strongRecOn generalizing p cs with
  | ind n ih =>
  cases cs with
  | nil => exact ⟨[], [], rfl, rfl, .nil, nofun⟩
  | cons c cs =>
    rw [List.length_cons] at hn
    by_cases hspace : Token.isSpace c
    · obtain ⟨gap, rest, rfl, hskip, hgap, hbegins⟩ := ih cs.length (by omega) (p.step c) cs rfl
      refine ⟨c :: gap, rest, rfl, ?_, .space hspace hgap, hbegins⟩
      rw [skipLayout, if_pos hspace, hskip]
      rfl
    by_cases hcomment : c = '/' ∧ cs.head? = some '/'
    · have henter : skipLayout false p (c :: cs) = skipLayout true (p.step c) cs := by
        rw [skipLayout, if_neg hspace, if_pos hcomment]
      obtain ⟨rfl, hhead⟩ := hcomment
      obtain ⟨cs, rfl⟩ := List.head?_eq_some_iff.1 hhead
      by_cases hbreak : '\n' ∈ cs
      · obtain ⟨body, cs, rfl, hbody⟩ := List.eq_append_cons_of_mem hbreak
        have hslash : '\n' ∉ '/' :: body := List.not_mem_cons_of_ne_of_not_mem (by decide) hbody
        simp only [List.length_cons, List.length_append] at hn
        obtain ⟨gap, rest, rfl, hskip, hgap, hbegins⟩ :=
          ih cs.length (by omega) (((p.step '/').past ('/' :: body)).step '\n') cs rfl
        refine ⟨'/' :: '/' :: body ++ '\n' :: gap, rest, by simp, ?_, .comment hbody hgap, hbegins⟩
        rw [henter, ← List.cons_append, skipLayout_comment hslash, hskip]
        simp only [Cursor.past, List.foldl_append, List.foldl_cons, List.cons_append]
      · have hslash : '\n' ∉ '/' :: cs := List.not_mem_cons_of_ne_of_not_mem (by decide) hbreak
        refine ⟨'/' :: '/' :: cs, [], (List.append_nil _).symm, ?_, .lastComment hbreak rfl, nofun⟩
        rw [henter, skipLayout_lastComment hslash]
        rfl
    · refine ⟨[], c :: cs, rfl, ?_, .nil, ?_⟩
      · rw [skipLayout, if_neg hspace, if_neg hcomment]
        rfl
      · rintro _ _ ⟨⟩
        exact ⟨Bool.eq_false_iff.2 hspace, hcomment⟩

/-- From a place on, a text has these tokens: each is what is scanned behind layout, and its span says at which
place it begins. -/
inductive Scanned : Cursor → List Char → List Lexeme → Prop
  | done {p : Cursor} {gap : List Char} (hgap : Layout true gap) : Scanned p gap []
  | token {p : Cursor} {gap tail rest : List Char} {c : Char} {k : Token} {ls : List Lexeme}
      (hgap : Layout false gap) (hbegins : Token.Begins c (tail ++ rest))
      (hscan : Token.scan c (tail ++ rest) = (k, tail)) (h : Scanned (p.past (gap ++ c :: tail)) rest ls) :
      Scanned p (gap ++ c :: tail ++ rest)
        (⟨k, .clamped (p.past gap).line ((p.past gap).before + 1) (tail.length + 1)⟩ :: ls)

lemma scanned_scanFrom {fuel : Nat} {cs : List Char} (p : Cursor) (hfuel : cs.length ≤ fuel) :
    Scanned p cs (scanFrom fuel p cs) := by
  induction fuel generalizing p cs with
  | zero =>
    obtain rfl := List.length_eq_zero_iff.1 (Nat.le_zero.1 hfuel)
    exact .done .nil
  | succ fuel ih =>
    obtain ⟨gap, rest, rfl, hskip, hgap, hbegins⟩ := exists_layout p cs
    rw [scanFrom, hskip]
    cases rest with
    | nil =>
      rw [List.append_nil]
      exact .done hgap
    | cons c rest =>
      obtain ⟨⟨rest', hrest⟩, -⟩ := Token.finds_scan c rest
      rcases hscan : Token.scan c rest with ⟨k, tail⟩
      rw [hscan] at hrest
      obtain rfl : tail ++ rest' = rest := hrest
      have hcursor : ((p.past gap).step c).past tail = p.past (gap ++ c :: tail) := by
        rw [Cursor.past_append]
        rfl
      dsimp only
      rw [hscan, List.drop_left, hcursor]
      simp only [List.length_append, List.length_cons] at hfuel
      have hrest' : rest'.length ≤ fuel := by omega
      have hls := ih (p.past (gap ++ c :: tail)) hrest'
      have htext : gap ++ c :: (tail ++ rest') = gap ++ c :: tail ++ rest' := by
        rw [List.append_assoc, List.cons_append]
      rw [htext]
      exact .token hgap (hbegins c _ rfl) hscan hls

lemma scanned_ofText (source : String) : Scanned .start source.toList (ofText source) :=
  scanned_scanFrom .start (Nat.le_refl _)

/-- A token stands at the slice of a text from one position to another. Its span says where that is: on which
line the slice begins, in which column, and how many characters it has, all up to a bound. -/
structure StandsAt {source : String} (l : Lexeme) (p q : source.Pos) : Prop where
  nonempty : p < q
  spelled : l.token.Spelled (String.extract p q).toList
  line : l.span.line = min (1 + (String.extract source.startPos p).toList.count '\n') (2 ^ 32 - 1)
  col : l.span.col = min (1 + sinceBreak (String.extract source.startPos p).toList) 65535
  len : l.span.len = min (String.extract p q).length 65535

/-- From a position of a text on, tokens stand one after another up to the end of the text, and between them is
layout. A position lies between two characters, or at an end of the text. -/
inductive Tile {source : String} : source.Pos → List Lexeme → Prop
  | done {p : source.Pos} (hgap : Layout true (String.extract p source.endPos).toList) : Tile p []
  | token {p q r : source.Pos} {l : Lexeme} {ls : List Lexeme} (hle : p ≤ q)
      (hgap : Layout false (String.extract p q).toList) (hl : l.StandsAt q r) (h : Tile r ls) : Tile p (l :: ls)

section Positions

variable {source : String} {p q : source.Pos} {as bs cs : List Char}

lemma extract_of_splits (hp : p.Splits (.ofList as) (.ofList (bs ++ cs)))
    (hq : q.Splits (.ofList (as ++ bs)) (.ofList cs)) : p ≤ q ∧ String.extract p q = .ofList bs := by
  rw [String.ofList_append] at hp hq
  have hle : p ≤ q := (hp.le_iff_exists_eq_append hq).2 ⟨_, rfl, rfl⟩
  obtain ⟨_, hslice⟩ := String.copy_slice_eq_iff_splits.2 ⟨_, _, hp, hq⟩
  exact ⟨hle, (String.extract_eq_copy_slice p q hle).trans hslice⟩

lemma extract_start_of_splits (hp : p.Splits (.ofList as) (.ofList cs)) :
    String.extract source.startPos p = .ofList as := by
  have hstart : source.startPos.Splits (.ofList []) (.ofList (as ++ cs)) := by
    rw [String.ofList_append, ← hp.eq_append]
    exact String.splits_startPos source
  exact (extract_of_splits hstart hp).2

lemma extract_end_of_splits (hp : p.Splits (.ofList as) (.ofList cs)) :
    String.extract p source.endPos = .ofList cs := by
  have hend : source.endPos.Splits (.ofList (as ++ cs)) (.ofList []) := by
    rw [String.ofList_append, ← hp.eq_append]
    exact String.splits_endPos source
  rw [← List.append_nil cs] at hp
  exact (extract_of_splits hp hend).2

lemma exists_splits (hp : p.Splits (.ofList as) (.ofList (bs ++ cs))) :
    ∃ q : source.Pos, q.Splits (.ofList (as ++ bs)) (.ofList cs) := by
  have hsource : source = .ofList (as ++ bs) ++ .ofList cs := by
    rw [hp.eq_append, ← String.ofList_append, ← String.ofList_append, List.append_assoc]
  exact ⟨_, String.Pos.splits_ofEqAppend hsource⟩

lemma splits_startPos (source : String) :
    source.startPos.Splits (.ofList []) (.ofList source.toList) := by
  rw [String.ofList_toList]
  exact String.splits_startPos source

end Positions

/-- A token stands at the slice from the cursor on. -/
lemma standsAt_of_splits {source : String} {p q : source.Pos} {before word cs : List Char} {k : Token}
    (hp : p.Splits (.ofList before) (.ofList (word ++ cs)))
    (hq : q.Splits (.ofList (before ++ word)) (.ofList cs)) (hword : word ≠ []) (hk : k.Spelled word) :
    StandsAt ⟨k, .clamped (Cursor.start.past before).line ((Cursor.start.past before).before + 1) word.length⟩
      p q := by
  obtain ⟨hle, hslice⟩ := extract_of_splits hp hq
  have hbefore := extract_start_of_splits hp
  have hlt : p < q := by
    rw [String.ofList_append] at hp hq
    refine (hp.lt_iff_exists_eq_append hq).2 ⟨.ofList word, fun h => hword ?_, rfl, rfl⟩
    rwa [String.ofList_eq_empty_iff] at h
  refine ⟨hlt, ?_, ?_, ?_, ?_⟩
  · rw [hslice, String.toList_ofList]
    exact hk
  · rw [hbefore, String.toList_ofList, Cursor.past_start]
    rfl
  · rw [hbefore, String.toList_ofList, Cursor.past_start, Nat.add_comm 1 (sinceBreak before)]
    rfl
  · rw [hslice, String.length_ofList]
    rfl

lemma Scanned.tile {source : String} {p : source.Pos} {before cs : List Char} {ls : List Lexeme}
    (hp : p.Splits (.ofList before) (.ofList cs)) (h : Scanned (Cursor.start.past before) cs ls) : Tile p ls := by
  generalize hcursor : Cursor.start.past before = cursor at h
  induction h generalizing p before with
  | done hgap =>
    refine .done ?_
    rw [extract_end_of_splits hp, String.toList_ofList]
    exact hgap
  | @token cursor gap tail rest c k ls hgap hbegins hscan h ih =>
    subst hcursor
    have hspelled := (Token.finds_scan c (tail ++ rest)).2
    rw [hscan] at hspelled
    rw [List.append_assoc] at hp
    obtain ⟨q, hq⟩ := exists_splits hp
    obtain ⟨hle, hslice⟩ := extract_of_splits hp hq
    obtain ⟨r, hr⟩ := exists_splits hq
    have hstands := standsAt_of_splits hq hr (List.cons_ne_nil c tail) hspelled
    rw [Cursor.past_append] at hstands
    refine .token hle ?_ hstands (ih hr ?_)
    · rw [hslice, String.toList_ofList]
      exact hgap
    · rw [List.append_assoc, Cursor.past_append]

lemma Tile.line_pos {source : String} {p : source.Pos} {ls : List Lexeme} (h : Tile p ls) :
    ∀ l ∈ ls, 0 < l.span.line := by
  induction h with
  | done => exact List.forall_mem_nil _
  | token _ _ hl _ ih =>
    refine List.forall_mem_cons.2 ⟨?_, ih⟩
    rw [hl.line]
    omega

/-- The tokens of a text stand at slices of it that are in order, disjoint and not empty, and that begin and end
between characters. Before, between and behind them is only whitespace and comments. Each token is what its
slice spells, and has the line, the column and the length of its slice, up to the bounds of these. -/
theorem tile_ofText (source : String) : Tile source.startPos (ofText source) :=
  (scanned_ofText source).tile (splits_startPos source)

end Lexeme

end BlockIR
