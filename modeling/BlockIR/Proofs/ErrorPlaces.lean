import BlockIR.Proofs.Grammar.Relocated
import BlockIR.Proofs.Joining

/-!
# Where errors of the parser are

The parser complains of a token, or that the tokens are used up. An error has the place of the token, or the place
behind the last one. It is shown with the line of the text that it is on, where the carets stand under the token.
-/

namespace BlockIR

namespace Token

variable {c : Char} {cs tail rest : List Char} {k : Token}

section Strings

lemma stringEnd_open {n m : Nat} (h : stringEnd n cs = (false, m)) :
    ∃ body, cs = body ∧ m = n + body.length ∨ body ++ ['\n'] <+: cs ∧ m = n + body.length + 1 := by
  fun_induction stringEnd n cs with
  | case1 n =>
    cases h
    exact ⟨[], .inl ⟨rfl, rfl⟩⟩
  | case2 n cs => cases h
  | case3 n cs =>
    cases h
    exact ⟨[], .inr ⟨(List.prefix_cons_inj _).2 List.nil_prefix, rfl⟩⟩
  | case4 n =>
    cases h
    exact ⟨['\\'], .inl ⟨rfl, rfl⟩⟩
  | case5 n c cs ih =>
    obtain ⟨body, ⟨rfl, hm⟩ | ⟨hbody, hm⟩⟩ := ih h
    · refine ⟨_, .inl ⟨rfl, ?_⟩⟩
      simp only [List.length_cons]
      omega
    · refine ⟨'\\' :: c :: body, .inr ⟨(List.prefix_cons_inj _).2 ((List.prefix_cons_inj _).2 hbody), ?_⟩⟩
      simp only [List.length_cons]
      omega
  | case6 n c cs _ _ _ _ ih =>
    obtain ⟨body, ⟨rfl, hm⟩ | ⟨hbody, hm⟩⟩ := ih h
    · refine ⟨_, .inl ⟨rfl, ?_⟩⟩
      simp only [List.length_cons]
      omega
    · refine ⟨c :: body, .inr ⟨(List.prefix_cons_inj _).2 hbody, ?_⟩⟩
      simp only [List.length_cons]
      omega

lemma take_stringEnd_open {n : Nat} (h : stringEnd 0 cs = (false, n)) :
    cs.take n = cs ∨ ∃ body, cs.take n = body ++ ['\n'] := by
  obtain ⟨body, ⟨rfl, hn⟩ | ⟨hbody, hn⟩⟩ := stringEnd_open h
  · rw [hn, Nat.zero_add]
    exact .inl List.take_length
  · have hlength : n = (body ++ ['\n']).length := by
      rw [List.length_append, List.length_singleton, hn, Nat.zero_add]
    rw [hlength]
    exact .inr ⟨body, (List.prefix_iff_eq_take.1 hbody).symm⟩

lemma break_not_mem_of_isText {n : Nat} {body : List Char} (htext : Quoted.IsText body)
    (hend : stringEnd n (body ++ '"' :: rest) = (true, n + body.length + 1)) : '\n' ∉ body := by
  induction htext generalizing n with
  | nil => exact List.not_mem_nil
  | @char c body hc _ ih =>
    by_cases hbreak : c = '\n'
    · subst hbreak
      cases hend
    · by_cases hquote : c = '"'
      · subst hquote
        have hlength : n + 1 = n + (body.length + 1) + 1 := congrArg Prod.snd hend
        omega
      · rw [List.cons_append, stringEnd.eq_6 _ _ _ hquote hbreak (fun h _ => hc h) (fun _ _ h _ => hc h),
          List.length_cons, ← Nat.add_assoc, Nat.add_right_comm n] at hend
        exact List.not_mem_cons_of_ne_of_not_mem (Ne.symm hbreak) (ih hend)
  | @escape m body hm _ ih =>
    have hstep : stringEnd (n + 2) (body ++ '"' :: rest) = (true, n + 2 + body.length + 1) := by
      have hlength : n + ('\\' :: m :: body).length + 1 = n + 2 + body.length + 1 := by
        simp only [List.length_cons]
        omega
      rw [hlength] at hend
      exact hend
    have hmark : '\n' ≠ m := (ne_of_mem_of_not_mem hm (by decide)).symm
    exact List.not_mem_cons_of_ne_of_not_mem (by decide) (List.not_mem_cons_of_ne_of_not_mem hmark (ih hstep))

end Strings

lemma isOpenString_scan (hquote : c ≠ '"') (cs : List Char) : (scan c cs).1.isOpenString = false := by
  have hspelled := (finds_scan c cs).2
  generalize (scan c cs).1 = k at hspelled
  cases k with
  | unknown s =>
    have htext : s.toList = c :: (scan c cs).2 := hspelled
    rw [isOpenString, htext]
    exact decide_eq_false fun h => hquote (Option.some.inj h)
  | _ => rfl

lemma not_mem_scan {s : Char} (hs : isSpace s) (hquote : c ≠ '"') (cs : List Char) : s ∉ (scan c cs).2 := by
  by_cases hmem : s ∈ cs
  · obtain ⟨as, bs, rfl, has⟩ := List.eq_append_cons_of_mem hmem
    rw [scan_append_space hs (isOpenString_scan hquote as)]
    exact fun h => has ((finds_scan c as).1.subset h)
  · exact fun h => hmem ((finds_scan c cs).1.subset h)

lemma scan_quote (cs : List Char) : scan '"' cs = scanString cs := rfl

lemma break_not_mem_of_isLegible (hc : isSpace c = false) (hscan : scan c cs = (k, tail)) (hk : k.isLegible) :
    '\n' ∉ c :: tail := by
  refine List.not_mem_cons_of_ne_of_not_mem (ne_of_isSpace hc rfl) ?_
  by_cases hquote : c = '"'
  · subst hquote
    rw [scan_quote, scanString] at hscan
    rcases hend : stringEnd 0 cs with ⟨closed, n⟩
    rw [hend] at hscan
    cases closed with
    | false =>
      cases hscan
      cases hk
    | true =>
      obtain ⟨body, hn, htake⟩ := take_stringEnd_closed hend
      have hbody : (body ++ ['"']).take (n - 1) = body := List.take_left' (by omega)
      simp only [if_true, htake, hbody] at hscan
      obtain ⟨rfl, rfl⟩ := Prod.mk.inj hscan
      have htext : Quoted.IsText body := by
        obtain ⟨_, hvalue⟩ := Option.isSome_iff_exists.1 hk
        rw [String.toList_ofList] at hvalue
        exact (Literal.str?_eq_some_iff.1 hvalue).1
      rw [← List.take_append_drop n cs, htake, List.append_assoc, List.singleton_append, hn, ← Nat.zero_add body.length]
        at hend
      exact List.not_mem_append (break_not_mem_of_isText htext hend) (by decide)
  · have hnone := not_mem_scan (s := '\n') rfl hquote cs
    rwa [hscan] at hnone

lemma getLast?_ne_of_scan (hscan : scan c (tail ++ '\n' :: rest) = (k, tail)) (hbreak : '\n' ∉ tail) :
    tail.getLast? ≠ some '\r' := by
  intro hlast
  have hmem := List.mem_of_getLast? hlast
  by_cases hquote : c = '"'
  · subst hquote
    rw [scan_quote, scanString] at hscan
    rcases hend : stringEnd 0 (tail ++ '\n' :: rest) with ⟨closed, n⟩
    rw [hend] at hscan
    have htake : (tail ++ '\n' :: rest).take n = tail := congrArg Prod.snd hscan
    cases closed with
    | false =>
      rcases take_stringEnd_open hend with hall | ⟨body, hbody⟩
      · rw [hall] at htake
        exact absurd (congrArg List.length htake) (by simp)
      · rw [hbody] at htake
        exact hbreak (htake ▸ List.mem_append_right _ (List.mem_singleton_self _))
    | true =>
      obtain ⟨body, -, hbody⟩ := take_stringEnd_closed hend
      rw [hbody] at htake
      rw [← htake, List.getLast?_concat] at hlast
      exact absurd (Option.some.inj hlast) (by decide)
  · have hnone := not_mem_scan (s := '\r') rfl hquote (tail ++ '\n' :: rest)
    rw [hscan] at hnone
    exact hnone hmem

lemma exists_further_of_scan {front head tail' after : List Char} (hscan : scan c (tail ++ rest) = (k, tail))
    (hbreak : '\n' ∉ tail) (hsplit : tail ++ rest = tail' ++ after)
    (hline : Text.IsLine front (head ++ c :: tail') after) : ∃ further, tail' = tail ++ further := by
  rcases List.append_eq_append_iff.1 hsplit with ⟨further, htail', -⟩ | ⟨beyond, rfl, hafter⟩
  · exact ⟨further, htail'⟩
  · -- A token that went on behind the line would take a line break, or the carriage return of one.
    cases beyond with
    | nil => exact ⟨[], by rw [List.append_nil, List.append_nil]⟩
    | cons d beyond =>
      rcases hline.ends with rfl | ⟨⟨after', rfl⟩, -⟩ | ⟨after', rfl⟩
      · cases hafter
      · obtain ⟨rfl, -⟩ := List.cons.inj hafter
        exact absurd (List.mem_append_right _ List.mem_cons_self) hbreak
      · obtain ⟨rfl, hrest⟩ := List.cons.inj hafter
        cases beyond with
        | nil =>
          obtain rfl : '\n' :: after' = rest := hrest
          exact absurd List.getLast?_concat (getLast?_ne_of_scan hscan hbreak)
        | cons d beyond =>
          obtain ⟨rfl, -⟩ := List.cons.inj hrest
          exact absurd (List.mem_append_right _ (List.mem_cons_of_mem _ List.mem_cons_self)) hbreak

end Token

namespace Lexeme

namespace Scanned

variable {p : Cursor} {cs : List Char} {l : Lexeme} {front back : List Lexeme}

/-- A token of a text is what is scanned behind a part of the text, and the tokens behind it are those of the rest. -/
lemma exists_scan (h : Scanned p cs (front ++ l :: back)) : ∃ before c tail rest,
    cs = before ++ (c :: tail ++ rest) ∧ Token.isSpace c = false ∧ Token.scan c (tail ++ rest) = (l.token, tail) ∧
      l.span = .clamped (p.past before).line ((p.past before).before + 1) (tail.length + 1) ∧
      Scanned (p.past (before ++ c :: tail)) rest back := by
  generalize hls : front ++ l :: back = ls at h
  induction h generalizing front with
  | done _ => exact absurd hls (List.append_ne_nil_of_right_ne_nil front (List.cons_ne_nil l back))
  | @token p gap tail rest c k ls _ hbegins hscan h ih =>
    cases front with
    | nil =>
      obtain ⟨rfl, rfl⟩ := List.cons.inj hls
      exact ⟨gap, c, tail, rest, List.append_assoc _ _ _, hbegins.1, hscan, rfl, h⟩
    | cons l' front =>
      obtain ⟨before, c', tail', rest', rfl, hc, hscan', hspan, h'⟩ := ih (List.cons.inj hls).2
      refine ⟨gap ++ c :: tail ++ before, c', tail', rest', ?_, hc, hscan', ?_, ?_⟩
      · simp only [List.append_assoc]
      · rw [Cursor.past_append]
        exact hspan
      · rw [List.append_assoc, Cursor.past_append]
        exact h'

end Scanned

/-- A token stands at the slice of a text between two positions, and is what is scanned there: before it stand
these characters, its own are these, and behind it is this rest. -/
structure ScannedAt {source : String} (l : Lexeme) (p q : source.Pos) (before : List Char) (c : Char)
    (tail rest : List Char) : Prop where
  starts : p.Splits (.ofList before) (.ofList (c :: tail ++ rest))
  ends : q.Splits (.ofList (before ++ c :: tail)) (.ofList rest)
  stands : l.StandsAt p q
  isSpace : Token.isSpace c = false
  scan : Token.scan c (tail ++ rest) = (l.token, tail)

variable {source : String} {l : Lexeme}

lemma exists_scannedAt {front back : List Lexeme} (h : ofText source = front ++ l :: back) :
    ∃ (p q : source.Pos) (before : List Char) (c : Char) (tail rest : List Char),
      l.ScannedAt p q before c tail rest ∧ Scanned (Cursor.start.past (before ++ c :: tail)) rest back := by
  have hscanned := scanned_ofText source
  rw [h] at hscanned
  obtain ⟨before, c, tail, rest, hsource, hc, hscan, hspan, hback⟩ := hscanned.exists_scan
  have hstart := splits_startPos source
  rw [hsource] at hstart
  obtain ⟨p, hp⟩ := exists_splits hstart
  rw [List.nil_append] at hp
  obtain ⟨q, hq⟩ := exists_splits hp
  have hspelled := (Token.finds_scan c (tail ++ rest)).2
  rw [hscan] at hspelled
  have hstands := standsAt_of_splits hp hq (List.cons_ne_nil c tail) hspelled
  have hl : l = ⟨l.token, .clamped (Cursor.start.past before).line ((Cursor.start.past before).before + 1)
      (c :: tail).length⟩ := congrArg (Lexeme.mk l.token) hspan
  rw [← hl] at hstands
  exact ⟨p, q, before, c, tail, rest, ⟨hp, hq, hstands, hc, hscan⟩, hback⟩

namespace ScannedAt

variable {p q : source.Pos} {before tail rest : List Char} {c : Char} (h : l.ScannedAt p q before c tail rest)
include h

lemma toList_eq : source.toList = before ++ c :: (tail ++ rest) := by
  rw [h.starts.eq_append, ← String.ofList_append, String.toList_ofList, List.cons_append]

lemma before_eq : (String.extract source.startPos p).toList = before := by
  rw [extract_start_of_splits h.starts, String.toList_ofList]

lemma past_eq : (String.extract source.startPos q).toList = before ++ c :: tail := by
  rw [extract_start_of_splits h.ends, String.toList_ofList]

lemma word_eq : (String.extract p q).toList = c :: tail := by
  rw [(extract_of_splits h.starts h.ends).2, String.toList_ofList]

lemma rest_eq : (String.extract q source.endPos).toList = rest := by
  rw [extract_end_of_splits h.ends, String.toList_ofList]

lemma line_eq (hlines : (Text.lines source).length < 2 ^ 32) : l.span.line = 1 + before.count '\n' := by
  have hline := h.stands.line
  have hcount := Text.count_lt_length_lineChars before c (tail ++ rest)
  rw [Text.lines, List.length_map, h.toList_eq] at hlines
  rw [h.before_eq] at hline
  omega

lemma col_eq : l.span.col = min (1 + sinceBreak before) 65535 := by
  rw [h.stands.col, h.before_eq]

lemma len_eq : l.span.len = min (tail.length + 1) 65535 := by
  rw [h.stands.len, ← String.length_toList, h.word_eq, List.length_cons]

end ScannedAt

end Lexeme

section Places

variable {before word front head tail after : List Char}

lemma sinceBreak_append (hword : '\n' ∉ word) : sinceBreak (before ++ word) = sinceBreak before + word.length := by
  have hstay : ∀ c ∈ word.reverse, decide (c ≠ '\n') = true := by
    intro c hc
    exact decide_eq_true (ne_of_mem_of_not_mem (List.mem_reverse.1 hc) hword)
  rw [sinceBreak, List.reverse_append, List.takeWhile_append_of_pos hstay, List.length_append, List.length_reverse,
    Nat.add_comm, sinceBreak]

lemma Text.IsLine.sinceBreak_eq (h : IsLine front (head ++ tail) after) :
    sinceBreak (front ++ head) = head.length := by
  have hhead : '\n' ∉ head := fun hmem => h.unbroken (List.mem_append_left _ hmem)
  have hfront : sinceBreak front = 0 := by
    rcases h.starts with rfl | ⟨front, rfl⟩
    · rfl
    · rw [sinceBreak, List.reverse_concat, List.takeWhile_cons_of_neg (by decide)]
      rfl
  rw [sinceBreak_append hhead, hfront, Nat.zero_add]

lemma Text.IsLine.count_eq (h : IsLine front (head ++ tail) after) :
    (front ++ head).count '\n' = front.count '\n' := by
  have hhead : '\n' ∉ head := fun hmem => h.unbroken (List.mem_append_left _ hmem)
  rw [List.count_append, List.count_eq_zero_of_not_mem hhead, Nat.add_zero]

/-- A position of a text is within a line, behind a part of the line and before the rest of it. -/
def OnLine {source : String} (p : source.Pos) (head tail : List Char) : Prop :=
  ∃ front after, p.Splits (.ofList (front ++ head)) (.ofList (tail ++ after)) ∧ Text.IsLine front (head ++ tail) after

/-- The span of no length just past the last token of a text, which ends at a position: all that follows is layout. -/
structure Span.IsEnd (s : Span) {source : String} (q : source.Pos) : Prop where
  last : ∃ l p, (Lexeme.ofText source).getLast? = some l ∧ l.StandsAt p q
  rest : Layout true (String.extract q source.endPos).toList
  line : s.line = 1 + (String.extract source.startPos q).toList.count '\n'
  col : s.col = min (1 + sinceBreak (String.extract source.startPos q).toList) 65535
  len : s.len = 0

end Places

namespace Diagnostic

/-- The row of a message that shows the line of the source. -/
def sourceRow (d : Diagnostic) (line : String) : String := " " ++ toString d.span.line ++ " | " ++ line

/-- What stands in front of the other rows, below the number of the line. -/
def margin (d : Diagnostic) : String := " " ++ spaces (toString d.span.line).length ++ " "

/-- The row below it, with the carets. -/
def caretRow (d : Diagnostic) : String :=
  d.margin ++ "| " ++ (spaces (d.span.col - 1) ++ String.ofList (List.replicate d.span.len '^'))

/-- A message that shows a line of the source. -/
def snippet (name : String) (d : Diagnostic) (line : String) : String :=
  "  --> " ++ name ++ ":" ++ toString d.span.line ++ ":" ++ toString d.span.col ++ "\n" ++
    d.margin ++ "|\n" ++
    d.sourceRow line ++ "\n" ++
    d.caretRow ++ "\n" ++
    d.margin ++ "|\n" ++
    d.margin ++ "= " ++ d.message

variable {name source : String} {d : Diagnostic}

lemma render_atEnd (hlen : d.span.len = 0) :
    d.render name source = name ++ ": hit EOF while expecting tokens, error: '" ++ d.message ++ "'" := by
  unfold render
  split
  · rw [if_pos hlen]
    rfl
  · rfl

lemma render_snippet (hlen : d.span.len ≠ 0) {line : String}
    (hline : (Text.lines source)[d.span.line - 1]? = some line) (hpos : 0 < d.span.line) :
    d.render name source = d.snippet name line := by
  have hmax : max d.span.line 1 = d.span.line := Nat.max_eq_left hpos
  unfold render
  simp only [hmax, hline, hlen, if_false]
  unfold snippet sourceRow caretRow margin
  simp only [String.append_assoc]

/-- The carets of a message stand below this part of the line, and nothing else does. -/
def Underlines (d : Diagnostic) (line word : List Char) : Prop :=
  ∃ blank, d.caretRow.toList = blank ++ List.replicate d.span.len '^' ∧ '^' ∉ blank ∧
    ((d.sourceRow (.ofList line)).toList.drop blank.length).take d.span.len = word

/-- The carets stand below the part of the line that begins in the column of the span and is as long as it. -/
lemma underlines {head word tail : List Char} (hcol : d.span.col = 1 + head.length) (hlen : d.span.len = word.length) :
    d.Underlines (head ++ (word ++ tail)) word := by
  refine ⟨' ' :: (List.replicate (toString d.span.line).length ' ' ++ ' ' :: '|' :: ' ' ::
    List.replicate head.length ' '), ?_, ?_, ?_⟩
  · rw [caretRow, hcol, Nat.add_sub_cancel_left]
    simp [margin, spaces, String.toList_append, String.toList_ofList]
  · simp [List.mem_replicate]
  · have hrow : (d.sourceRow (.ofList (head ++ (word ++ tail)))).toList =
        (' ' :: ((toString d.span.line).toList ++ ' ' :: '|' :: ' ' :: head)) ++ (word ++ tail) := by
      simp [sourceRow, String.toList_append, String.toList_ofList]
    rw [hrow, List.drop_left', hlen, List.take_left]
    simp only [List.length_cons, List.length_append, List.length_replicate, String.length_toList]

end Diagnostic

namespace Lexeme

variable {source : String} {l : Lexeme}

lemma isEnd_endSpan (hlines : (Text.lines source).length < 2 ^ 32) (hlast : (ofText source).getLast? = some l)
    (hl : l.token.isLegible) : ∃ q : source.Pos, (ParseError.endSpan (ofText source)).IsEnd q := by
  obtain ⟨ls, hls⟩ := List.getLast?_eq_some_iff.1 hlast
  obtain ⟨p, q, before, c, tail, rest, hat, hback⟩ := exists_scannedAt hls
  have hword := Token.break_not_mem_of_isLegible hat.isSpace hat.scan hl
  have hspan : ParseError.endSpan (ofText source) = ⟨l.span.line, min (l.span.col + l.span.len) 65535, 0⟩ := by
    rw [ParseError.endSpan, hlast]
    rfl
  rw [hspan]
  refine ⟨q, ⟨l, p, hlast, hat.stands⟩, ?_, ?_, ?_, rfl⟩
  · rw [hat.rest_eq]
    cases hback with
    | done hgap => exact hgap
  · rw [hat.past_eq, List.count_append, List.count_eq_zero_of_not_mem hword]
    exact hat.line_eq hlines
  · have hclamped : ∀ a b : Nat, min (min (1 + a) 65535 + min b 65535) 65535 = min (1 + (a + b)) 65535 := by omega
    rw [hat.past_eq, sinceBreak_append hword, hat.col_eq, hat.len_eq]
    exact hclamped _ _

lemma len_pos_of_mem_ofText (hl : l ∈ ofText source) : 0 < l.span.len := by
  obtain ⟨ls, ls', hls⟩ := List.append_of_mem hl
  obtain ⟨p, q, before, c, tail, rest, hat, -⟩ := exists_scannedAt hls
  rw [hat.len_eq]
  omega

/-- A token of a text begins within a line of it, which has the number that the span says. A token without line
breaks is within this line. -/
lemma exists_onLine (hlines : (Text.lines source).length < 2 ^ 32) (hl : l ∈ ofText source) :
    ∃ (p q : source.Pos) (head tail : List Char), l.StandsAt p q ∧ OnLine p head tail ∧
      0 < l.span.line ∧ (Text.lines source)[l.span.line - 1]? = some (.ofList (head ++ tail)) ∧
      l.span.col = min (1 + head.length) 65535 ∧
      ('\n' ∉ (String.extract p q).toList → ∃ further, tail = (String.extract p q).toList ++ further) := by
  obtain ⟨ls, ls', hls⟩ := List.append_of_mem hl
  obtain ⟨p, q, before, c, tail, rest, hat, -⟩ := exists_scannedAt hls
  have hbreak : c ≠ '\n' := (Token.ne_of_isSpace hat.isSpace rfl).symm
  have hreturn : c ≠ '\r' := (Token.ne_of_isSpace hat.isSpace rfl).symm
  obtain ⟨front, head, tail', after, rfl, hsplit, hisline⟩ := Text.exists_isLine hbreak hreturn before (tail ++ rest)
  have hline := hat.line_eq hlines
  have hcol := hat.col_eq
  have htext := hat.toList_eq
  have hp := hat.starts
  rw [hisline.count_eq] at hline
  rw [hisline.sinceBreak_eq] at hcol
  rw [hsplit, ← List.cons_append, ← List.append_assoc, List.append_assoc front] at htext
  rw [List.cons_append, hsplit, ← List.cons_append] at hp
  have hget := hisline.getElem?_lineChars (List.append_ne_nil_of_right_ne_nil _ (List.cons_ne_nil _ _))
  refine ⟨p, q, head, c :: tail', hat.stands, ⟨front, after, hp, hisline⟩, ?_, ?_, hcol, ?_⟩
  · omega
  · rw [hline, Nat.add_sub_cancel_left, Text.lines, List.getElem?_map, htext, hget]
    rfl
  · rw [hat.word_eq]
    intro hword
    obtain ⟨further, rfl⟩ :=
      Token.exists_further_of_scan hat.scan (List.not_mem_of_not_mem_cons hword) hsplit hisline
    exact ⟨further, rfl⟩

end Lexeme

namespace Module

variable {name source : String} {e : ParseError}

lemma exists_stop_of_parse (h : Module.parse name source = .error e) :
    ∃ stop, ofTokens name (Lexeme.ofText source) = .error stop ∧ .ofStop (Lexeme.ofText source) stop = e := by
  obtain ⟨stop, hstop, he⟩ := Parser.exists_ofStop_of_parse h
  refine ⟨stop, ?_, he⟩
  rw [ofTokens, hstop]
  rfl

/-- An error of the parser has no length if the tokens are used up, and only then. It is just past the last token then,
up to the bound of columns, and what is shown says that the end was hit. Otherwise the error is at a token of the text,
and is shown with the line that the token begins on, without the end of the line. If the token has no line break and
its column and its length are within their bounds, it is what stands above the carets. This is of texts whose
lines can be counted. -/
theorem error_at_place (h : Module.parse name source = .error e) (hlines : (Text.lines source).length < 2 ^ 32) :
    (e.span.len = 0 ↔ ∃ c, ofTokens name (Lexeme.ofText source) = .error (.atEnd c)) ∧
    (e.span.len = 0 → (∃ q : source.Pos, e.span.IsEnd q) ∧
      ∀ file, ReadError.render file source (.parse e) =
        file ++ ": hit EOF while expecting tokens, error: '" ++ e.message ++ "'") ∧
    (e.span.len ≠ 0 → ∃ l ∈ Lexeme.ofText source, l.span = e.span ∧
      ∃ (p q : source.Pos) (head tail : List Char), l.StandsAt p q ∧ OnLine p head tail ∧
        (∀ file, ReadError.render file source (.parse e) =
          (Diagnostic.ofParseError e).snippet file (.ofList (head ++ tail))) ∧
        ('\n' ∉ (String.extract p q).toList → e.span.col < 65535 → e.span.len < 65535 →
          (Diagnostic.ofParseError e).Underlines (head ++ tail) (String.extract p q).toList)) := by
  obtain ⟨stop, hstop, rfl⟩ := exists_stop_of_parse h
  rcases exists_token_of_stop hstop with ⟨lx, hlx, c, rfl⟩ | ⟨⟨c, rfl⟩, hlegible⟩
  · have hlen : lx.span.len ≠ 0 := Nat.ne_of_gt (Lexeme.len_pos_of_mem_ofText hlx)
    obtain ⟨p, q, head, tail, hstands, honLine, hpos, hline, hcol, hword⟩ := Lexeme.exists_onLine hlines hlx
    refine ⟨⟨fun hzero => absurd hzero hlen, ?_⟩, fun hzero => absurd hzero hlen, fun _ => ?_⟩
    · rintro ⟨c', hend⟩
      rw [hstop] at hend
      cases hend
    · refine ⟨lx, hlx, rfl, p, q, head, tail, hstands, honLine, fun file => ?_, fun hbreak hcolumn hlength => ?_⟩
      · exact Diagnostic.render_snippet hlen hline hpos
      · obtain ⟨further, rfl⟩ := hword hbreak
        have hspan : (ParseError.ofStop (Lexeme.ofText source) (.at lx c)).span = lx.span := rfl
        rw [hspan] at hcolumn hlength
        have hslice := hstands.len
        refine Diagnostic.underlines ?_ ?_
        · show lx.span.col = 1 + head.length
          omega
        · show lx.span.len = _
          rw [String.length_toList]
          omega
  · have hne : Lexeme.ofText source ≠ [] := by
      intro hnil
      rw [hnil] at hstop
      cases hstop
    have hlast := List.getLast?_eq_getLast_of_ne_nil hne
    obtain ⟨q, hq⟩ := Lexeme.isEnd_endSpan hlines hlast (hlegible _ (List.getLast_mem hne))
    refine ⟨⟨fun _ => ⟨c, hstop⟩, fun _ => hq.len⟩, fun _ => ⟨⟨q, hq⟩, fun file => ?_⟩, fun hlen => absurd hq.len hlen⟩
    exact Diagnostic.render_atEnd hq.len

/-- A text that ends within a block. Behind its last token stands a line with a comment. -/
def torn : String := "fn f() \x7b a: \x7b\r\n  // then?\r\n"

/-- A text in which a number stands for the name of a function, behind a character of two bytes. -/
def misnamed : String := "#[note(by = \"é\")] fn 17() \r\n"

theorem torn_and_misnamed_at_places :
    (∃ e, Module.parse "m" torn = .error e ∧ (Text.lines torn).length < 2 ^ 32 ∧ e.span = ⟨1, 14, 0⟩ ∧
      (∃ q : torn.Pos, e.span.IsEnd q) ∧ ∀ file, ReadError.render file torn (.parse e) =
        file ++ ": hit EOF while expecting tokens, error: '" ++ e.message ++ "'") ∧
    ∃ e, Module.parse "m" misnamed = .error e ∧ (Text.lines misnamed).length < 2 ^ 32 ∧ e.span = ⟨1, 22, 2⟩ ∧
      ∃ line, (∀ file, ReadError.render file misnamed (.parse e) =
        (Diagnostic.ofParseError e).snippet file (.ofList line)) ∧
        (Diagnostic.ofParseError e).Underlines line ['1', '7'] := by
  constructor
  · have hlines : (Text.lines torn).length < 2 ^ 32 := by decide +kernel
    have hspan : (Module.parse "m" torn).mapError (·.span) = .error ⟨1, 14, 0⟩ := by decide +kernel
    cases h : Module.parse "m" torn with
    | ok m =>
      rw [h] at hspan
      cases hspan
    | error e =>
      rw [h] at hspan
      replace hspan : e.span = ⟨1, 14, 0⟩ := Except.error.inj hspan
      obtain ⟨-, hend, -⟩ := error_at_place h hlines
      obtain ⟨hplace, hrender⟩ := hend (congrArg Span.len hspan)
      exact ⟨e, rfl, hlines, hspan, hplace, hrender⟩
  · have hlines : (Text.lines misnamed).length < 2 ^ 32 := by decide +kernel
    have hspan : (Module.parse "m" misnamed).mapError (·.span) = .error ⟨1, 22, 2⟩ := by decide +kernel
    have htoken : ∀ l ∈ Lexeme.ofText misnamed, l.span = ⟨1, 22, 2⟩ → l.token = .int "17" := by decide +kernel
    cases h : Module.parse "m" misnamed with
    | ok m =>
      rw [h] at hspan
      cases hspan
    | error e =>
      rw [h] at hspan
      replace hspan : e.span = ⟨1, 22, 2⟩ := Except.error.inj hspan
      obtain ⟨-, -, hat⟩ := error_at_place h hlines
      obtain ⟨l, hl, hplace, p, q, head, tail, hstands, -, hrender, hunderlines⟩ := hat (by rw [hspan]; decide)
      have hspelled := hstands.spelled
      rw [htoken l hl (hplace.trans hspan)] at hspelled
      have hword : ['1', '7'] = (String.extract p q).toList := hspelled
      rw [← hword, hspan] at hunderlines
      exact ⟨e, rfl, hlines, hspan, head ++ tail, hrender,
        hunderlines (by decide) (by decide) (by decide)⟩

end Module

end BlockIR
