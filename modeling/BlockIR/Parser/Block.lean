import BlockIR.Parser.Basic
import BlockIR.Literal

/-!
# Reading blocks

Operands, statements, terminators and blocks. A scope says which functions and labels there are.
-/

namespace BlockIR

/-- The place that a token names. -/
def Place.ofToken? : Token → Option Place
  | .keyword .ret => some .result
  | .arg i => some (.arg i)
  | .var i => some (.var i)
  | .temp i => some (.temp i)
  | _ => none

/-- The constant of a literal, if the token is one; it is missing if the spelling has no value. -/
def Constant.ofToken? : Token → Option (Option Constant)
  | .int s => some ((Literal.int? s.toList).map .int)
  | .uint s => some ((Literal.uint? s.toList).map .uint)
  | .float s => some ((Literal.float? s.toList).map .float)
  | .str s => some ((Literal.str? s.toList).map .str)
  | .bool b => some (some (.bool b))
  | _ => none

/-- The position that a statement which begins with a token carries. -/
def Lexeme.pos (lx : Lexeme) : Pos := ⟨UInt32.ofNat lx.span.line, UInt32.ofNat lx.span.col⟩

namespace Parser

def place : Parser Place := do
  let lx ← next "an lvalue"
  match Place.ofToken? lx.token with
  | some p => return p
  | none => reject lx (.expected "an lvalue")

def constant : Parser Constant := do
  let lx ← next "a constant"
  match Constant.ofToken? lx.token with
  | some (some c) => return c
  | some none => reject lx .badLiteral
  | none => reject lx (.expected "a constant")

/-- A constant or the name of a function. -/
def literal (scope : Scope) : Parser Operand := do
  let lx ← peek "a constant"
  match lx.token with
  | .ident name =>
    skip
    match scope.function? name with
    | some f => return .func f
    | none => reject lx (.unknownFunction name)
  | _ => return .const (← constant)

def operand (scope : Scope) : Parser Operand := do
  let lx ← peek "an operand"
  match lx.token with
  | .keyword .const =>
    skip
    literal scope
  | token =>
    if (Place.ofToken? token).isSome then return .read (← place)
    else reject lx (.expected "an operand")

/-- A callee may be the bare name of a function. -/
def callee (scope : Scope) : Parser Operand := do
  match ← front? with
  | some (.ident _) => literal scope
  | _ => operand scope

def rvalue (scope : Scope) : Parser Rvalue := do
  match ← front? with
  | some (.binOp op) =>
    skip
    discard <| expectMark .parenOpen "`(` after operator"
    let x ← operand scope
    discard <| expectMark .comma "`,` between operands"
    let y ← operand scope
    discard <| expectMark .parenClose "`)` after operands"
    return .binary op x y
  | some (.unOp op) =>
    skip
    discard <| expectMark .parenOpen "`(` after operator"
    let x ← operand scope
    discard <| expectMark .parenClose "`)` after operand"
    return .unary op x
  | _ => return .use (← operand scope)

/-- The block that a label names. -/
def target (scope : Scope) : Parser BlockId := do
  let (label, lx) ← ident "a block label"
  match scope.block? label with
  | some b => return b
  | none => reject lx (.unknownBlock label)

def endOfStatement : Parser Unit := discard <| expectMark .semi "`;` after statement"

def endOfTerminator : Parser Unit := discard <| expectMark .semi "`;` after terminator"

/-- What follows the place of an assignment or a call. -/
def assignment (scope : Scope) (p : Place) : Parser (Action ⊕ Transfer) := do
  discard <| expectMark .eq "`=` after lvalue"
  if ← nextIs (.keyword .call) then
    skip
    let f ← callee scope
    discard <| expectMark .parenOpen "`(` to begin argument list"
    let xs ← parenthesized (fun (xs : Array Operand) => return xs.push (← operand scope)) #[]
    discard <| expectMark .arrow "`->` after call"
    let b ← target scope
    endOfTerminator
    return .inr (.call p f xs.toList b)
  else
    let r ← rvalue scope
    endOfStatement
    return .inl (.assign p r)

def drop (kind : DropKind) : Parser Action := do
  skip
  discard <| expectMark .parenOpen "`(` after drop"
  let p ← place
  discard <| expectMark .parenClose "`)` after dropped lvalue"
  endOfStatement
  return .drop kind p

/-- An arrow and the block that it points to. -/
def jump (scope : Scope) (arrow : String) : Parser BlockId := do
  skip
  discard <| expectMark .arrow arrow
  let b ← target scope
  endOfTerminator
  return b

def branch (scope : Scope) : Parser Transfer := do
  skip
  discard <| expectMark .parenOpen "`(` after `if`"
  let c ← operand scope
  discard <| expectMark .parenClose "`)` after condition"
  discard <| expectMark .arrow "`->` after condition"
  discard <| expectMark .squareOpen "`[` to begin targets"
  discard <| expect (.bool true) "`true`"
  discard <| expectMark .colon "`:` after `true`"
  let t ← target scope
  discard <| expectMark .comma "`,` between targets"
  discard <| expect (.bool false) "`false`"
  discard <| expectMark .colon "`:` after `false`"
  let e ← target scope
  discard <| expectMark .squareClose "`]` to end targets"
  endOfTerminator
  return .branch c t e

/-- The cases that were read, in order. -/
abbrev Cases := Array (Constant × BlockId)

/-- The next case of a switch, or the end of the cases, before which `otherwise` may stand. -/
def switchCase (scope : Scope) (cases : Cases) : Parser (Cases ⊕ (Cases × Option BlockId)) := do
  let lx ← peek "a switch case or `]`"
  match lx.token with
  | .mark .squareClose =>
    skip
    return .inr (cases, none)
  | .keyword .otherwise =>
    skip
    discard <| expectMark .colon "`:` after `otherwise`"
    let b ← target scope
    discard <| expectMark .squareClose "`]` after `otherwise` target"
    return .inr (cases, some b)
  | _ =>
    let c ← constant
    discard <| expectMark .colon "`:` after switch value"
    let b ← target scope
    let cases := cases.push (c, b)
    if ← nextIs (.mark .comma) then
      skip
      return .inl cases
    else
      discard <| expectMark .squareClose "`,` or `]`"
      return .inr (cases, none)

def switch (scope : Scope) : Parser Transfer := do
  skip
  discard <| expectMark .parenOpen "`(` after `switchInt`"
  let p ← place
  discard <| expectMark .parenClose "`)` after discriminant"
  discard <| expectMark .arrow "`->` after discriminant"
  discard <| expectMark .squareOpen "`[` to begin targets"
  let (cases, otherwise) ← loop (switchCase scope) #[]
  endOfTerminator
  return Draft.switchTransfer p cases.toList otherwise

/-- A statement or a terminator. -/
def action (scope : Scope) (lx : Lexeme) : Parser (Action ⊕ Transfer) := do
  match lx.token with
  | .keyword .drop => return .inl (← drop .free)
  | .keyword .dropDeep => return .inl (← drop .deep)
  | .keyword .ret =>
    skip
    if ← nextIs (.mark .semi) then
      skip
      return .inr .ret
    else assignment scope .result
  | .arg _ | .var _ | .temp _ => assignment scope (← place)
  | .keyword .goto => return .inr (.goto (← jump scope "`->` after `goto`"))
  | .keyword .if_ => return .inr (← branch scope)
  | .keyword .switchInt => return .inr (← switch scope)
  | .keyword .diverge =>
    skip
    endOfTerminator
    return .inr .diverge
  | .keyword .panic => return .inr (.panic (← jump scope "`->` after `panic`"))
  | _ => reject lx (.expected "a statement or terminator")

/-- Reads a statement or terminator into the current block; a terminator ends the block. -/
def line (scope : Scope) (d : Draft) : Parser (Draft ⊕ Draft) := do
  let lx ← peek "a statement or terminator"
  match ← action scope lx with
  | .inl a => return .inl (← drafted lx (d.append ⟨a, lx.pos⟩))
  | .inr t => return .inr (← drafted lx (d.terminate ⟨t, lx.pos⟩))

def block (scope : Scope) (d : Draft) : Parser Draft := do
  let (label, lx) ← ident "a block label"
  match scope.block? label with
  | none => reject lx (.unknownBlock label)
  | some b =>
    discard <| expectMark .colon "`:` after block label"
    discard <| expectMark .curlyOpen "`\x7b` to begin block"
    let d ← drafted lx (d.switchTo b)
    let d ← loop (line scope) d
    discard <| expectMark .curlyClose "`\x7d` after terminator"
    return d

end Parser

end BlockIR
