import BlockIR.Proofs.Grammar.Relocated
import BlockIR.Proofs.Joining

/-!
# Layout does not change meaning

Whitespace and comments before a text move it down by the lines that they take. What is read is the same, a module
or an error, with its positions moved.
-/

namespace BlockIR

section Down

variable (n : Nat)

/-- The position that is some lines further down. -/
def Pos.down (p : Pos) : Pos := { p with line := p.line + UInt32.ofNat n }

def Module.down (m : Module) : Module := m.mapPos (Pos.down n)

def ParseError.down (e : ParseError) : ParseError := { e with span.line := e.span.line + n }

/-- All tokens are some lines further down. -/
def Relocation.down : Relocation where
  Moves lx lx' := lx.down n = lx'
  pos := Pos.down n
  Left _ := True
  token_eq h := h ▸ rfl
  pos_eq {lx _} h := by
    subst h
    exact congrArg (Pos.mk · (UInt32.ofNat lx.span.col)) (UInt32.ofNat_add lx.span.line n)
  left_tail _ _ := trivial

lemma Lexeme.pos_down (lx : Lexeme) : (lx.down n).pos = lx.pos.down n := (Relocation.down n).pos_eq rfl

end Down

namespace Module

variable {name : String} {ts : List Lexeme}

lemma results_down (n : Nat) (name : String) (ts : List Lexeme) : (Relocation.down n).Results
    (fun m m' => m.down n = m') (Parser.module name ts) (Parser.module name (ts.map (.down n))) :=
  Relocation.agree_module name ts _ ⟨trivial, List.forall₂_map_right_iff.2 (List.forall₂_same.2 fun _ _ => rfl)⟩

lemma endSpan_map_down (n : Nat) (hne : ts ≠ []) :
    ParseError.endSpan (ts.map (.down n)) = { ParseError.endSpan ts with line := (ParseError.endSpan ts).line + n } := by
  obtain ⟨lx, hlx⟩ := Option.ne_none_iff_exists'.1 (List.getLast?_eq_none_iff.not.2 hne)
  unfold ParseError.endSpan
  rw [List.getLast?_map, hlx]
  rfl

/-- Tokens that are further down are read alike. The error at the end of the tokens is further down as well, for
without tokens there is none. -/
lemma ofTokens_map_down (n : Nat) (name : String) (ts : List Lexeme) :
    (ofTokens name (ts.map (.down n))).mapError (ParseError.ofStop (ts.map (.down n))) =
      (((ofTokens name ts).mapError (ParseError.ofStop ts)).map (Module.down n)).mapError (ParseError.down n) := by
  have hdown := results_down n name ts
  unfold ofTokens
  rcases hm : Parser.module name ts with e | ⟨m, rest⟩ <;> rw [hm] at hdown
  · generalize Parser.module name (ts.map (.down n)) = r at hdown
    cases hdown with
    | error hstops =>
      cases hstops with
      | «at» hlx c =>
        obtain rfl := hlx
        rfl
      | atEnd _ c =>
        have hne : ts ≠ [] := by
          rintro rfl
          cases hm
        have hend := endSpan_map_down n hne
        exact congrArg (fun span => Except.error (ParseError.mk span c none)) hend
  · generalize Parser.module name (ts.map (.down n)) = r at hdown
    cases hdown with
    | ok hx _ =>
      subst hx
      rfl

end Module

/-- A line break between two texts keeps their tokens apart, unless the first leaves a string open: the tokens of the
second come after those of the first, as many lines further down as the first text takes. So whitespace and
comments before a text change nothing but lines: the same module is parsed, whose positions are that many lines
further down, or the same error, whose line is. This is of texts whose lines can all be counted. -/
theorem layout_keeps_meaning (a b : String) (hlines : (Text.lines (a ++ "\n" ++ b)).length < 2 ^ 32) :
    ((∀ l ∈ Lexeme.ofText a, l.token.isOpenString = false) → Lexeme.ofText (a ++ "\n" ++ b) =
      Lexeme.ofText a ++ (Lexeme.ofText b).map (.down (1 + a.toList.count '\n'))) ∧
    (Layout true a.toList → ∀ name,
      Module.parse name (a ++ "\n" ++ b) = ((Module.parse name b).map (.down (1 + a.toList.count '\n'))).mapError
        (.down (1 + a.toList.count '\n')) ∧
      ∀ m, Module.parse name b = .ok m → ∀ p ∈ m.positions,
        (p.down (1 + a.toList.count '\n')).line.toNat = p.line.toNat + (1 + a.toList.count '\n')) := by
  refine ⟨Lexeme.ofText_append_break hlines, fun hlayout name => ?_⟩
  have hnone : Lexeme.ofText a = [] := (Lexeme.Scanned.done hlayout).scanFrom_eq (Nat.le_refl _)
  have htokens : Lexeme.ofText (a ++ "\n" ++ b) = (Lexeme.ofText b).map (.down (1 + a.toList.count '\n')) := by
    rw [Lexeme.ofText_append_break hlines (hnone ▸ List.forall_mem_nil _), hnone, List.nil_append]
  refine ⟨?_, fun m hm p hp => ?_⟩
  · unfold Module.parse
    rw [htokens]
    exact Module.ofTokens_map_down _ name _
  · obtain ⟨lx, hlx, rfl⟩ := Module.exists_token_of_position (Module.parse_eq_ok_iff.1 hm) hp
    have hdown : lx.down (1 + a.toList.count '\n') ∈ Lexeme.ofText (a ++ "\n" ++ b) := by
      rw [htokens]
      exact List.mem_map_of_mem hlx
    rw [← Lexeme.pos_down, (Lexeme.pos_of_mem_ofText hdown).1, (Lexeme.pos_of_mem_ofText hlx).1]
    rfl

/-- A comment of two lines, the second of which is not ended. -/
def header : String := "// first\n// second"

/-- A function with a statement and a terminator. -/
def headed : String := "fn f() \x7b a: \x7b\n  return = const 1;\n  return; \x7d \x7d"

theorem header_keeps_meaning : (Text.lines (header ++ "\n" ++ headed)).length < 2 ^ 32 ∧
    Layout true header.toList ∧ (∀ l ∈ Lexeme.ofText header, l.token.isOpenString = false) ∧
    Lexeme.ofText (header ++ "\n" ++ headed) = Lexeme.ofText header ++ (Lexeme.ofText headed).map (.down 2) ∧
    ∃ m, Module.parse "m" headed = .ok m ∧ m.positions = [⟨2, 3⟩, ⟨3, 3⟩] ∧
      Module.parse "m" (header ++ "\n" ++ headed) = .ok (m.down 2) ∧
      ∀ p ∈ m.positions, (p.down 2).line.toNat = p.line.toNat + 2 := by
  have hlines : (Text.lines (header ++ "\n" ++ headed)).length < 2 ^ 32 := by decide +kernel
  have hlayout : Layout true header.toList := by
    have htext : header.toList = '/' :: '/' :: " first".toList ++ '\n' :: ('/' :: '/' :: " second".toList) := by
      decide +kernel
    rw [htext]
    exact .comment (by decide +kernel) (.lastComment (by decide +kernel) rfl)
  have hclosed : ∀ l ∈ Lexeme.ofText header, l.token.isOpenString = false := by decide +kernel
  have hcount : 1 + header.toList.count '\n' = 2 := by decide +kernel
  have hpositions : (Module.parse "m" headed).map (·.positions) = .ok [⟨2, 3⟩, ⟨3, 3⟩] := by decide +kernel
  obtain ⟨htokens, hparse⟩ := layout_keeps_meaning header headed hlines
  rw [hcount] at htokens hparse
  obtain ⟨hparse, hshift⟩ := hparse hlayout "m"
  cases hm : Module.parse "m" headed with
  | error e =>
    rw [hm] at hpositions
    cases hpositions
  | ok m =>
    rw [hm] at hpositions hparse
    exact ⟨hlines, hlayout, hclosed, htokens hclosed, m, rfl, Except.ok.inj hpositions, hparse, hshift m hm⟩

end BlockIR
