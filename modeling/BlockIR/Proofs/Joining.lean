import BlockIR.Proofs.Lexemes
import BlockIR.Proofs.Lines

/-!
# Tokens of texts that are joined by a line break

Whitespace ends a token as the end of a text does, unless it is in a string that is left open. So the tokens of two
texts with a line break between them are those of the first text and then those of the second, which are as many
lines further down as the first text takes.
-/

namespace BlockIR

namespace Token

/-- What is scanned where the closing quote of a string is missing. -/
def isOpenString : Token → Bool
  | unknown s => s.toList.head? = some '"'
  | _ => false

section Spaces

variable {c s : Char} {cs : List Char}

lemma mem_spaces_of_isSpace (hs : isSpace s) : s ∈ [' ', '\t', '\n', '\x0c', '\r'] := by
  simpa only [isSpace, Bool.or_eq_true, decide_eq_true_eq, List.mem_cons, List.not_mem_nil, or_false, or_assoc] using hs

lemma eq_false_of_isSpace {p : Char → Bool} (hp : [' ', '\t', '\n', '\x0c', '\r'].any p = false)
    (hs : isSpace s) : p s = false :=
  Bool.eq_false_iff.2 (List.any_eq_false.1 hp s (mem_spaces_of_isSpace hs))

lemma ne_of_isSpace (hc : isSpace c = false) (hs : isSpace s) : s ≠ c := by
  rintro rfl
  exact Bool.eq_false_iff.1 hc hs

lemma isDigit_of_isSpace (hs : isSpace s) : s.isDigit = false := eq_false_of_isSpace (by decide) hs

lemma isRadixDigit_of_isSpace (mark : Char) (hs : isSpace s) : isRadixDigit mark s = false := by
  unfold isRadixDigit
  split_ifs <;> exact eq_false_of_isSpace (p := fun s => (Numeral.digit? _ s).isSome) (by decide) hs

lemma takeWhile_append_cons {p : Char → Bool} (hp : p s = false) (cs ds : List Char) :
    (cs ++ s :: ds).takeWhile p = cs.takeWhile p := by
  induction cs with
  | nil =>
    rw [List.nil_append, List.takeWhile_cons, hp]
    rfl
  | cons c cs ih => rw [List.cons_append, List.takeWhile_cons, List.takeWhile_cons, ih]

lemma drop_takeWhile_append (p : Char → Bool) (cs ds : List Char) :
    (cs ++ ds).drop (cs.takeWhile p).length = cs.drop (cs.takeWhile p).length ++ ds :=
  List.drop_append_of_le_length (List.takeWhile_prefix p).length_le

section Scanners

variable (hs : isSpace s)
include hs

lemma eq_cons_of_append_space {ds rest : List Char} (hc : isSpace c = false) (h : cs ++ s :: ds = c :: rest) :
    ∃ cs', cs = c :: cs' ∧ cs' ++ s :: ds = rest := by
  cases cs with
  | nil => exact absurd (List.cons.inj h).1 (ne_of_isSpace hc hs)
  | cons d cs =>
    obtain ⟨rfl, hrest⟩ := List.cons.inj h
    exact ⟨cs, rfl, hrest⟩

lemma exponentPart_append_space (cs ds : List Char) : exponentPart (cs ++ s :: ds) = exponentPart cs := by
  have hdigit := isDigit_of_isSpace hs
  fun_cases exponentPart cs with
  | case1 cs => exact congrArg ('e' :: '-' :: ·) (takeWhile_append_cons hdigit cs ds)
  | case2 cs hminus =>
    rw [← takeWhile_append_cons hdigit cs ds]
    refine exponentPart.eq_2 _ fun rest h => ?_
    obtain ⟨cs', rfl, -⟩ := eq_cons_of_append_space hs rfl h
    exact hminus cs' rfl
  | case3 cs hminus hplus =>
    refine exponentPart.eq_3 _ (fun rest h => ?_) fun rest h => ?_
    · obtain ⟨cs', rfl, -⟩ := eq_cons_of_append_space hs rfl h
      exact hplus cs' rfl
    · obtain ⟨cs', rfl, -⟩ := eq_cons_of_append_space hs rfl h
      exact hplus cs' rfl

lemma scanNumber_append_space (c : Char) (cs ds : List Char) :
    scanNumber c (cs ++ s :: ds) = scanNumber c cs := by
  have hdigit := isDigit_of_isSpace hs
  unfold scanNumber
  rw [takeWhile_append_cons hdigit]
  dsimp only
  rw [drop_takeWhile_append]
  generalize cs.takeWhile Char.isDigit = whole
  generalize cs.drop whole.length = rest
  split
  · next h =>
    obtain ⟨rest, rfl, rfl⟩ := eq_cons_of_append_space hs rfl h
    simp only [takeWhile_append_cons hdigit, drop_takeWhile_append, exponentPart_append_space hs]
  · next h =>
    obtain ⟨rest, rfl, -⟩ := eq_cons_of_append_space hs rfl h
    rfl
  · next hpoint hunsigned =>
    split
    · exact absurd rfl (hpoint _)
    · exact absurd rfl (hunsigned _)
    · rfl

lemma scanRadix_append_space (mark : Char) (cs ds : List Char) :
    scanRadix mark (cs ++ s :: ds) = scanRadix mark cs := by
  unfold scanRadix
  rw [takeWhile_append_cons (isRadixDigit_of_isSpace mark hs)]
  dsimp only
  rw [drop_takeWhile_append]
  generalize cs.takeWhile (isRadixDigit mark) = digits
  generalize cs.drop digits.length = rest
  split
  · next h =>
    obtain ⟨rest, rfl, -⟩ := eq_cons_of_append_space hs rfl h
    rfl
  · next hunsigned =>
    split
    · exact absurd rfl (hunsigned _)
    · rfl

lemma scanMinus_append_space (cs ds : List Char) : scanMinus (cs ++ s :: ds) = scanMinus cs := by
  unfold scanMinus
  split
  · next h =>
    obtain ⟨cs, rfl, -⟩ := eq_cons_of_append_space hs rfl h
    rfl
  · next d rest harrow h =>
    cases cs with
    | nil =>
      obtain ⟨rfl, -⟩ := List.cons.inj h
      rw [isDigit_of_isSpace hs]
      rfl
    | cons c cs =>
      obtain ⟨rfl, -⟩ := List.cons.inj h
      rw [scanNumber_append_space hs]
      simp only
  · next h => exact absurd h (List.append_ne_nil_of_right_ne_nil cs (List.cons_ne_nil s ds))

lemma scanZero_append_space (cs ds : List Char) : scanZero (cs ++ s :: ds) = scanZero cs := by
  unfold scanZero
  cases cs with
  | nil =>
    have hmark : ¬(s = 'x' ∨ s = 'b' ∨ s = 'o') := by
      rintro (hx | hb | ho)
      · exact ne_of_isSpace rfl hs hx
      · exact ne_of_isSpace rfl hs hb
      · exact ne_of_isSpace rfl hs ho
    rw [List.nil_append]
    dsimp only
    rw [if_neg hmark]
    exact scanNumber_append_space hs '0' [] ds
  | cons c cs =>
    rw [List.cons_append]
    dsimp only
    rw [scanRadix_append_space hs, ← List.cons_append, scanNumber_append_space hs]

end Scanners

lemma stringEnd_append {n k : Nat} (h : stringEnd n cs = (true, k)) (ds : List Char) :
    stringEnd n (cs ++ ds) = (true, k) := by
  fun_induction stringEnd n cs with
  | case1 n => cases h
  | case2 n cs => exact h
  | case3 n cs => cases h
  | case4 n => cases h
  | case5 n c cs ih => exact ih h
  | case6 n c cs hquote hbreak hlone hescape ih =>
    have hbackslash : c ≠ '\\' := by
      intro hc
      cases cs with
      | nil => exact hlone hc rfl
      | cons d cs => exact hescape d cs hc rfl
    rw [List.cons_append, stringEnd.eq_6 _ _ _ hquote hbreak (fun hc _ => hbackslash hc)
      (fun _ _ hc _ => hbackslash hc)]
    exact ih h

lemma scanString_append {ds : List Char} (h : (scanString cs).1.isOpenString = false) :
    scanString (cs ++ ds) = scanString cs := by
  unfold scanString at h ⊢
  rcases hend : stringEnd 0 cs with ⟨closed, n⟩
  rw [hend] at h
  cases closed with
  | false =>
    simp only [Bool.false_eq_true, if_false, isOpenString, String.toList_ofList, List.head?_cons, decide_true,
      reduceCtorEq] at h
  | true =>
    obtain ⟨body, hn, hbody⟩ := stringEnd_closed hend
    have hlength := hbody.length_le
    rw [List.length_append, List.length_singleton] at hlength
    rw [stringEnd_append hend]
    dsimp only
    rw [List.take_append_of_le_length (by omega)]

/-- Whitespace ends a token as the end of the text does, unless it is in a string that is left open. -/
lemma scan_append_space (hs : isSpace s) {ds : List Char} (h : (scan c cs).1.isOpenString = false) :
    scan c (cs ++ s :: ds) = scan c cs := by
  have hword : isWordChar s = false := eq_false_of_isSpace (by decide) hs
  unfold scan at h ⊢
  split
  · rfl
  · next hmark =>
    rw [hmark] at h
    dsimp only at h
    split_ifs at h ⊢
    · exact scanString_append h
    · exact scanMinus_append_space hs cs ds
    · exact scanZero_append_space hs cs ds
    · exact scanNumber_append_space hs c cs ds
    · rw [takeWhile_append_cons hword]
    · rfl

end Spaces

end Token

lemma Layout.append_break {gap cs : List Char} {atEnd : Bool} (hgap : Layout true gap) (h : Layout atEnd cs) :
    Layout atEnd (gap ++ '\n' :: cs) := by
  induction hgap with
  | nil => exact .space rfl h
  | space hc _ ih => exact .space hc ih
  | @comment body gap hbody _ ih =>
    have htext : '/' :: '/' :: body ++ '\n' :: gap ++ '\n' :: cs =
        '/' :: '/' :: body ++ '\n' :: (gap ++ '\n' :: cs) := List.append_assoc _ _ _
    rw [htext]
    exact .comment hbody ih
  | lastComment hbody _ => exact .comment hbody h

namespace Cursor

/-- A place that is some lines further down. -/
def down (n : Nat) (p : Cursor) : Cursor := ⟨p.line + n, p.before⟩

lemma past_down (n : Nat) (p : Cursor) (cs : List Char) : (p.down n).past cs = (p.past cs).down n := by
  induction cs generalizing p with
  | nil => rfl
  | cons c cs ih =>
    have hstep : (p.down n).step c = (p.step c).down n := by
      unfold step down
      split_ifs
      · rw [Nat.add_right_comm]
      · rfl
    rw [past, List.foldl_cons, hstep]
    exact ih (p.step c)

lemma line_past (p : Cursor) (cs : List Char) : (p.past cs).line = p.line + cs.count '\n' := by
  induction cs generalizing p with
  | nil => rfl
  | cons c cs ih =>
    rw [past, List.foldl_cons]
    refine (ih (p.step c)).trans ?_
    unfold step
    by_cases hc : c = '\n'
    · rw [if_pos hc, hc, List.count_cons_self]
      exact Nat.add_right_comm _ _ _
    · rw [if_neg hc, List.count_cons_of_ne hc]

end Cursor

namespace Lexeme

/-- A token that stands some lines further down. -/
def down (n : Nat) (l : Lexeme) : Lexeme := { l with span.line := l.span.line + n }

lemma skipLayout_append {gap rest : List Char} {atEnd : Bool} (hgap : Layout atEnd gap) (hend : atEnd → rest = [])
    (p : Cursor) : skipLayout false p (gap ++ rest) = skipLayout false (p.past gap) rest := by
  induction hgap generalizing p with
  | nil => rfl
  | space hc _ ih =>
    rw [List.cons_append, skipLayout, if_pos hc]
    exact ih (p.step _)
  | @comment body gap hbody _ ih =>
    have hslash : '\n' ∉ '/' :: body := List.not_mem_cons_of_ne_of_not_mem (by decide) hbody
    have henter : skipLayout false p ('/' :: '/' :: body ++ '\n' :: gap ++ rest) =
        skipLayout true (p.step '/') ('/' :: body ++ '\n' :: (gap ++ rest)) := by
      rw [List.append_assoc, List.cons_append, List.cons_append]
      rfl
    rw [henter, skipLayout_comment hslash, ih]
    simp only [Cursor.past, List.foldl_append, List.foldl_cons]
  | @lastComment body hbody h =>
    have hslash : '\n' ∉ '/' :: body := List.not_mem_cons_of_ne_of_not_mem (by decide) hbody
    have henter : skipLayout false p ('/' :: '/' :: body) = skipLayout true (p.step '/') ('/' :: body) := rfl
    rw [hend h, List.append_nil, henter, skipLayout_lastComment hslash]
    rfl

namespace Scanned

variable {p : Cursor} {cs ds : List Char} {ls ls' : List Lexeme}

lemma scanFrom_eq (h : Scanned p cs ls) {fuel : Nat} (hfuel : cs.length ≤ fuel) : scanFrom fuel p cs = ls := by
  induction h generalizing fuel with
  | @done p gap hgap =>
    have hskip := skipLayout_append hgap (fun _ => rfl) p
    rw [List.append_nil] at hskip
    cases fuel with
    | zero => rfl
    | succ fuel =>
      rw [scanFrom, hskip]
      rfl
  | @token p gap tail rest c k ls hgap hbegins hscan _ ih =>
    simp only [List.length_append, List.length_cons] at hfuel
    cases fuel with
    | zero => omega
    | succ fuel =>
      have hskip : skipLayout false p (gap ++ c :: tail ++ rest) = (p.past gap, c :: (tail ++ rest)) := by
        rw [List.append_assoc, skipLayout_append hgap (fun h => absurd h Bool.false_ne_true), List.cons_append,
          skipLayout, if_neg (Bool.eq_false_iff.1 hbegins.1), if_neg hbegins.2]
      have hcursor : ((p.past gap).step c).past tail = p.past (gap ++ c :: tail) := by
        rw [Cursor.past_append]
        rfl
      rw [scanFrom, hskip]
      dsimp only
      rw [hscan, List.drop_left, hcursor, ih (by omega)]

lemma append_break (h : Scanned p cs ls) (hclosed : ∀ l ∈ ls, l.token.isOpenString = false)
    (h' : Scanned ((p.past cs).step '\n') ds ls') : Scanned p (cs ++ '\n' :: ds) (ls ++ ls') := by
  induction h with
  | @done p gap hgap =>
    have hcursor (gap' : List Char) : ((p.past gap).step '\n').past gap' = p.past (gap ++ '\n' :: gap') :=
      (Cursor.past_append p gap ('\n' :: gap')).symm
    cases h' with
    | done hgap' => exact .done (hgap.append_break hgap')
    | @token _ gap' tail rest c k ls hgap' hbegins hscan h' =>
      have htext : gap ++ '\n' :: (gap' ++ c :: tail ++ rest) = gap ++ '\n' :: gap' ++ c :: tail ++ rest := by
        simp only [List.append_assoc, List.cons_append]
      rw [hcursor] at h' ⊢
      rw [htext]
      refine .token (hgap.append_break hgap') hbegins hscan ?_
      rwa [List.append_assoc, List.cons_append]
  | @token p gap tail rest c k ls hgap hbegins hscan _ ih =>
    obtain ⟨hk, hls⟩ := List.forall_mem_cons.1 hclosed
    have hnext := ih hls (by rwa [← Cursor.past_append])
    rw [List.append_assoc]
    refine .token hgap ⟨hbegins.1, fun hslash => hbegins.2 ⟨hslash.1, ?_⟩⟩ ?_ hnext
    · have hhead := hslash.2
      rw [← List.append_assoc] at hhead
      cases htail : tail ++ rest with
      | nil =>
        rw [htail] at hhead
        cases hhead
      | cons d cs =>
        rw [htail] at hhead
        exact hhead
    · rw [← List.append_assoc, Token.scan_append_space rfl (by rw [hscan]; exact hk), hscan]

lemma down {n : Nat} (h : Scanned p cs ls) (hlines : p.line + (Text.lineChars cs).length + n ≤ Span.maxLine + 1) :
    Scanned (p.down n) cs (ls.map (Lexeme.down n)) := by
  induction h with
  | done hgap => exact .done hgap
  | @token p gap tail rest c k ls hgap hbegins hscan _ ih =>
    have hspan : Lexeme.down n ⟨k, .clamped (p.past gap).line ((p.past gap).before + 1) (tail.length + 1)⟩ =
        ⟨k, .clamped ((p.down n).past gap).line (((p.down n).past gap).before + 1) (tail.length + 1)⟩ := by
      have hline := Text.count_lt_length_lineChars gap c (tail ++ rest)
      rw [← List.cons_append, ← List.append_assoc] at hline
      have hpast := Cursor.line_past p gap
      have hmin : min (p.past gap).line Span.maxLine + n = min ((p.past gap).line + n) Span.maxLine := by omega
      rw [Cursor.past_down]
      exact congrArg (fun line => Lexeme.mk k ⟨line, _, _⟩) hmin
    have hrest := Text.count_add_length_le (gap ++ c :: tail) rest
    have hpast := Cursor.line_past p (gap ++ c :: tail)
    rw [List.map_cons, hspan]
    refine .token hgap hbegins hscan ?_
    rw [Cursor.past_down]
    exact ih (by omega)

end Scanned

/-- A line break between two texts, the first of which leaves no string open, keeps their tokens apart, and
those of the second are as many lines further down as the first takes. This is of texts whose lines can all be
counted. -/
lemma ofText_append_break {a b : String} (hlines : (Text.lines (a ++ "\n" ++ b)).length < 2 ^ 32)
    (hclosed : ∀ l ∈ ofText a, l.token.isOpenString = false) :
    ofText (a ++ "\n" ++ b) = ofText a ++ (ofText b).map (down (1 + a.toList.count '\n')) := by
  have htext : (a ++ "\n" ++ b).toList = a.toList ++ '\n' :: b.toList := by
    rw [String.toList_append, String.toList_append, List.append_assoc]
    rfl
  have hcursor : (Cursor.start.past a.toList).step '\n' = Cursor.start.down (1 + a.toList.count '\n') := by
    rw [Cursor.past_start]
    exact congrArg (Cursor.mk · 0) (Nat.add_comm _ _)
  have hcount : a.toList.count '\n' + 1 + (Text.lineChars b.toList).length ≤ Span.maxLine := by
    rw [Text.lines, List.length_map, htext] at hlines
    have hcount := Text.count_add_length_le (a.toList ++ ['\n']) b.toList
    rw [List.append_assoc, List.count_append, List.count_singleton_self, List.singleton_append] at hcount
    unfold Span.maxLine UInt32.size
    omega
  have hb : Scanned ((Cursor.start.past a.toList).step '\n') b.toList
      ((ofText b).map (down (1 + a.toList.count '\n'))) := by
    rw [hcursor]
    refine (scanned_ofText b).down ?_
    have hstart : Cursor.start.line = 1 := rfl
    omega
  rw [ofText, htext]
  exact ((scanned_ofText a).append_break hclosed hb).scanFrom_eq (Nat.le_refl _)

end Lexeme

end BlockIR
