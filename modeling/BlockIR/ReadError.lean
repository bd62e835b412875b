import BlockIR.Draft
import BlockIR.Text.Lines
import BlockIR.Token.Lexer
import BlockIR.Verifier

/-!
# Errors of reading

A text is refused because it breaks the grammar, at a token or at its end, or because the module it
spells is not well-formed. Errors keep their cause; wording and layout are here.
-/

namespace BlockIR

/-- Why the text cannot go on as it does. -/
inductive Complaint
  | expected (what : String)
  | repeatedFunction (name : String)
  | repeatedBlock (label : String)
  | unknownFunction (name : String)
  | unknownBlock (label : String)
  | noBlocks (function : String)
  | badLiteral
  | badEscape
  /-- A block of a finished function was never filled. -/
  | unfinished (block : BlockId)
  /-- A function is not declared in its turn. -/
  | outOfTurn (function : String)
  | misuse (fault : DraftFault)
  /-- A part of the grammar was asked for again though it took no token. -/
  | stalled
deriving DecidableEq

def Complaint.message : Complaint → String
  | expected what => "expected " ++ what
  | repeatedFunction name => "function `" ++ name ++ "` is defined more than once"
  | repeatedBlock label => "block `" ++ label ++ "` is defined more than once"
  | unknownFunction name => "unknown function `" ++ name ++ "`"
  | unknownBlock label => "unknown block label `" ++ label ++ "`"
  | noBlocks function => "function `" ++ function ++ "` has no basic blocks"
  | badLiteral => "invalid literal"
  | badEscape => "invalid escape in string"
  | unfinished block => Draft.unfinished block
  | outOfTurn function => "function `" ++ function ++ "` is declared out of turn"
  | misuse fault => fault.message
  | stalled => "no token was read"

/-- Where the reader stopped, and why: at a token, or because there are no more. -/
inductive Stop
  | at (lexeme : Lexeme) (complaint : Complaint)
  | atEnd (complaint : Complaint)
deriving DecidableEq

/-- A refusal of a text. A token that is not one of the language is mentioned. -/
structure ParseError where
  span : Span
  complaint : Complaint
  stray : Option String
deriving DecidableEq

namespace ParseError

/-- The place just after the last token. -/
def endSpan (tokens : List Lexeme) : Span :=
  match tokens.getLast? with
  | some lx => ⟨lx.span.line, min (lx.span.col + lx.span.len) Span.maxCol, 0⟩
  | none => ⟨1, 1, 0⟩

def strayText? : Token → Option String
  | .unknown spelling => some spelling
  | _ => none

/-- The error of a reader that stopped among these tokens. -/
def ofStop (tokens : List Lexeme) : Stop → ParseError
  | .at lx complaint => ⟨lx.span, complaint, strayText? lx.token⟩
  | .atEnd complaint => ⟨endSpan tokens, complaint, none⟩

def message (e : ParseError) : String :=
  match e.stray with
  | some spelling => e.complaint.message ++ ", found invalid token `" ++ spelling ++ "`"
  | none => e.complaint.message

end ParseError

/-- A message about a stretch of a source line. -/
structure Diagnostic where
  span : Span
  message : String

namespace Diagnostic

def ofParseError (e : ParseError) : Diagnostic := ⟨e.span, e.message⟩

/-- The message with its line and column. -/
def text (d : Diagnostic) : String :=
  toString d.span.line ++ ":" ++ toString d.span.col ++ ": " ++ d.message

def spaces (n : Nat) : String := String.ofList (List.replicate n ' ')

/-- The source line with the stretch underlined. At the end of the text there is none to show. -/
def render (name source : String) (d : Diagnostic) : String :=
  match (Text.lines source)[max d.span.line 1 - 1]? with
  | some line =>
    if d.span.len = 0 then atEnd
    else
      let number := toString d.span.line
      let margin := " " ++ spaces number.length ++ " "
      let underline := spaces (d.span.col - 1) ++ String.ofList (List.replicate d.span.len '^')
      "  --> " ++ name ++ ":" ++ number ++ ":" ++ toString d.span.col ++ "\n" ++
        margin ++ "|\n" ++
        " " ++ number ++ " | " ++ line ++ "\n" ++
        margin ++ "| " ++ underline ++ "\n" ++
        margin ++ "|\n" ++
        margin ++ "= " ++ d.message
  | none => atEnd
where
  atEnd : String := name ++ ": hit EOF while expecting tokens, error: '" ++ d.message ++ "'"

end Diagnostic

/-- A message about a place in a source. -/
structure Remark where
  message : String
  pos : Pos

namespace Remark

def ofIssue (i : Issue) : Remark := ⟨i.flaw.message, i.pos⟩

/-- Whether a remark comes no later in the source than another. -/
def notAfter (a b : Remark) : Bool :=
  a.pos.line.toNat < b.pos.line.toNat ||
    (a.pos.line.toNat = b.pos.line.toNat && a.pos.col.toNat ≤ b.pos.col.toNat)

def line (name : String) (r : Remark) : String :=
  name ++ ":" ++ toString r.pos.line.toNat ++ ":" ++ toString r.pos.col.toNat ++ ": " ++ r.message

/-- The remarks in the order of the source, one a line. -/
def render (name : String) (remarks : List Remark) : String :=
  String.intercalate "\n" ((remarks.mergeSort notAfter).map (line name))

/-- The number of remarks, as the reader reports it. -/
def summary (remarks : List Remark) : String :=
  "module failed verification with " ++ toString remarks.length ++ " issue(s)"

end Remark

/-- Why a text is not read. -/
inductive ReadError
  | parse (error : ParseError)
  | verify (issues : List Issue)
deriving DecidableEq

namespace ReadError

def text : ReadError → String
  | parse e => (Diagnostic.ofParseError e).text
  | verify issues => Remark.summary (issues.map .ofIssue)

def render (name source : String) : ReadError → String
  | parse e => (Diagnostic.ofParseError e).render name source
  | verify issues => Remark.render name (issues.map .ofIssue)

end ReadError

end BlockIR
