import BlockIR.ReadError

/-!
# Reading tokens

A reader takes tokens from the front of a list and gives a value, or stops with a complaint about the
token in front or about the end of the list.
-/

namespace BlockIR

abbrev Parser := StateT (List Lexeme) (Except Stop)

namespace Parser

variable {α σ : Type}

def fail (s : Stop) : Parser α := fun _ => .error s

/-- Complains about a token. -/
def reject (lx : Lexeme) (c : Complaint) : Parser α := fail (.at lx c)

/-- Takes a token; `what` says what is expected where there is none. -/
def next (what : String) : Parser Lexeme
  | [] => .error (.atEnd (.expected what))
  | lx :: ts => .ok (lx, ts)

/-- Looks at the token in front. -/
def peek (what : String) : Parser Lexeme
  | [] => .error (.atEnd (.expected what))
  | lx :: ts => .ok (lx, lx :: ts)

/-- The token in front, if there is one. -/
def front? : Parser (Option Token) := fun ts => .ok (ts.head?.map (·.token), ts)

/-- Whether this token is in front. -/
def nextIs (t : Token) : Parser Bool := return (← front?) = some t

/-- Takes a token that was looked at. -/
def skip : Parser Unit := fun ts => .ok ((), ts.drop 1)

/-- Takes this token. -/
def expect (t : Token) (what : String) : Parser Lexeme := do
  let lx ← next what
  if lx.token = t then return lx else reject lx (.expected what)

def expectMark (m : Mark) (what : String) : Parser Lexeme := expect (.mark m) what

/-- Takes an identifier. -/
def ident (what : String) : Parser (String × Lexeme) := do
  let lx ← next what
  match lx.token with
  | .ident name => return (name, lx)
  | _ => reject lx (.expected what)

/-- Runs one round after another until one gives a result, at most as many as the fuel says. -/
def rounds (round : σ → Parser (σ ⊕ α)) : Nat → σ → Parser α
  | 0, _, _ => .error (.atEnd .stalled)
  | fuel + 1, s, ts =>
    match round s ts with
    | .error e => .error e
    | .ok (.inl s', ts') => rounds round fuel s' ts'
    | .ok (.inr x, ts') => .ok (x, ts')

/-- Runs rounds until one gives a result. A round that asks for another takes a token at least, so that
there is one round more than tokens at most. -/
def loop (round : σ → Parser (σ ⊕ α)) (s : σ) : Parser α :=
  fun ts => rounds round (ts.length + 1) s ts

/-- Items with commas between them, up to and with the closing parenthesis. -/
def commaItems (item : σ → Parser σ) (s : σ) : Parser σ :=
  loop (fun s => do
    let s ← item s
    let lx ← next "`,` or `)`"
    match lx.token with
    | .mark .comma => return .inl s
    | .mark .parenClose => return .inr s
    | _ => reject lx (.expected "`,` or `)`")) s

/-- A list in parentheses of which the opening one was taken. -/
def parenthesized (item : σ → Parser σ) (s : σ) : Parser σ := do
  if ← nextIs (.mark .parenClose) then
    skip
    return s
  else commaItems item s

/-- Reports a misuse of a draft as a complaint about a token. -/
def drafted (lx : Lexeme) : Except DraftFault α → Parser α
  | .ok x => pure x
  | .error fault => reject lx (.misuse fault)

end Parser

/-- The functions of a module and the blocks of a function, by the order of their names. -/
structure Scope where
  functions : List String
  labels : List String

namespace Scope

/-- The key of a name among names that have keys in order. -/
def key? {κ : Type} [Key κ] (names : List String) (name : String) : Option κ :=
  (names.idxOf? name).map Key.ofNat

def function? (s : Scope) (name : String) : Option FuncId := key? s.functions name

def block? (s : Scope) (label : String) : Option BlockId := key? s.labels label

end Scope

end BlockIR
