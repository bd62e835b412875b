import BlockIR.Parser.Block

/-!
# Reading modules

A call may name a function that is defined further on, and a jump a block that comes later. So the names
of all functions are collected before the first function is read, and the labels of a function before
its first block.
-/

namespace BlockIR

namespace Scope

/-- The names of the functions of a module, which are the identifiers after `fn` outside of braces. -/
def functionNames (depth : Nat) (names : List String) : List Lexeme → Except Stop (List String)
  | [] => .ok names
  | lx :: ts =>
    match lx.token with
    | .mark .curlyOpen => functionNames (depth + 1) names ts
    | .mark .curlyClose => functionNames (depth - 1) names ts
    | .keyword .fn =>
      match depth, ts.head? with
      | 0, some ⟨.ident name, span⟩ =>
        if name ∈ names then .error (.at ⟨.ident name, span⟩ (.repeatedFunction name))
        else functionNames depth (names ++ [name]) ts
      | _, _ => functionNames depth names ts
    | _ => functionNames depth names ts

/-- The labels of a function of which the opening brace was taken: the identifiers before a colon that
stand directly in its braces. -/
def blockLabels (depth : Nat) (labels : List String) : List Lexeme → Except Stop (List String)
  | [] => .ok labels
  | lx :: ts =>
    match lx.token with
    | .mark .curlyOpen => blockLabels (depth + 1) labels ts
    | .mark .curlyClose => if depth = 0 then .ok labels else blockLabels (depth - 1) labels ts
    | .ident label =>
      if depth = 0 ∧ ts.head?.map (·.token) = some (.mark .colon) then
        if label ∈ labels then .error (.at lx (.repeatedBlock label))
        else blockLabels depth (labels ++ [label]) ts
      else blockLabels depth labels ts
    | _ => blockLabels depth labels ts

end Scope

namespace Parser

/-- Looks ahead in the tokens without taking any. -/
def lookAhead {α : Type} (f : List Lexeme → Except Stop α) : Parser α :=
  fun ts =>
    match f ts with
    | .ok x => .ok (x, ts)
    | .error e => .error e

/-- Arguments are numbered in order; gives the number of arguments after this one. -/
def param (n : Nat) : Parser Nat := do
  let lx ← next "a parameter"
  match lx.token with
  | .arg i =>
    if i.toNat = n then return n + 1 else reject lx (.expected ("parameter `arg" ++ toString n ++ "`"))
  | _ => reject lx (.expected ("parameter `arg" ++ toString n ++ "`"))

def params : Parser Nat := do
  discard <| expectMark .parenOpen "`(` to begin parameter list"
  parenthesized param 0

/-- The next declaration, if there is one. Variables and temporaries are declared in order. -/
def decl (d : Draft) : Parser (Draft ⊕ Draft) := do
  if ← nextIs (.keyword .let_) then
    skip
    let lx ← next "a local to declare"
    let d ← match lx.token with
      | .var i =>
        if i = d.vars then pure d.declareVar.2
        else reject lx (.expected ("`var" ++ toString d.vars.toNat ++ "` to be declared next"))
      | .temp i =>
        if i = d.temps then pure d.declareTemp.2
        else reject lx (.expected ("`tmp" ++ toString d.temps.toNat ++ "` to be declared next"))
      | _ => reject lx (.expected "`varN` or `tmpN`")
    discard <| expectMark .semi "`;` after declaration"
    return .inl d
  else return .inr d

def attrArg (args : Array (String × String)) : Parser (Array (String × String)) := do
  let (key, _) ← ident "an attribute argument name"
  discard <| expectMark .eq "`=` after attribute argument name"
  let lx ← next "a string for the attribute argument"
  match lx.token with
  | .str spelling =>
    match Literal.str? spelling.toList with
    | some value => return args.push (key, value)
    | none => reject lx .badEscape
  | _ => reject lx (.expected "a string for the attribute argument")

def attr : Parser Attribute := do
  discard <| expectMark .hash "`#`"
  discard <| expectMark .squareOpen "`[` after `#`"
  let (name, _) ← ident "an attribute name"
  let args ←
    if ← nextIs (.mark .parenOpen) then
      skip
      commaItems attrArg #[]
    else pure #[]
  discard <| expectMark .squareClose "`]` to close attribute"
  return ⟨name, args.toList⟩

/-- The next attribute, if there is one. -/
def attrs (attrs : Array Attribute) : Parser (Array Attribute ⊕ Array Attribute) := do
  if ← nextIs (.mark .hash) then return .inl (attrs.push (← attr)) else return .inr attrs

/-- The next block of a function, unless its closing brace comes next. -/
def blocks (scope : Scope) (d : Draft) : Parser (Draft ⊕ Draft) := do
  if ← nextIs (.mark .curlyClose) then return .inr d else return .inl (← block scope d)

/-- The braces of a function and what is in them. -/
def body (functions : List String) (name : String) (args : Nat) (opening : Lexeme) : Parser Body := do
  let d ← loop decl (.start (UInt32.ofNat args))
  let labels ← lookAhead (Scope.blockLabels 0 [])
  if labels.isEmpty then reject opening (.noBlocks name)
  else
    let d ← loop (blocks ⟨functions, labels⟩) (d.createBlocks labels.length)
    let closing ← expectMark .curlyClose "`\x7d` to end function body"
    match d.finish with
    | .ok body => return body
    | .error b => reject closing (.unfinished b)

/-- Reads a function into a module. Its key is the position of its name. -/
def function (functions : List String) (m : Module) : Parser Module := do
  let attrs ← loop attrs #[]
  discard <| expect (.keyword .fn) "`fn`"
  let (name, lx) ← ident "a function name"
  let args ← params
  let opening ← expectMark .curlyOpen "`\x7b` to begin function body"
  let f := m.functions.nextKey
  if Scope.key? functions name = some f then
    let body ← body functions name args opening
    return (m.declare name attrs.toList).define f body
  else reject lx (.outOfTurn name)

/-- The next function, unless the tokens are used up. -/
def functions (names : List String) (m : Module) : Parser (Module ⊕ Module) := do
  match ← front? with
  | some _ => return .inl (← function names m)
  | none => return .inr m

/-- All functions of a module. -/
def module (name : String) : Parser Module := do
  let names ← lookAhead (Scope.functionNames 0 [])
  loop (functions names) (.empty name)

end Parser

namespace Module

/-- The module that tokens spell, or where and why reading stopped. -/
def ofTokens (name : String) (tokens : List Lexeme) : Except Stop Module :=
  (Parser.module name tokens).map (·.1)

/-- The module that a text spells. It need not be well-formed. -/
def parse (name source : String) : Except ParseError Module :=
  let tokens := Lexeme.ofText source
  (ofTokens name tokens).mapError (ParseError.ofStop tokens)

/-- The well-formed module that a text spells. -/
def read (name source : String) : Except ReadError Module :=
  match parse name source with
  | .error e => .error (.parse e)
  | .ok m => if m.verifies then .ok m else .error (.verify m.issues)

end Module

end BlockIR
