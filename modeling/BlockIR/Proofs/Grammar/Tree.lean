import BlockIR.Parser.Module
import Mathlib.Tactic.Common

/-!
# The grammar

Derivations of the text form are trees with one constructor for each production. The leaves of a tree are
the tokens that it derives. A statement and a terminator also fix the position of their first token.
-/

namespace BlockIR

/-- A token of a derivation, and its position if that is fixed. -/
structure Leaf where
  token : Token
  pos : Option Pos

namespace Leaf

def of (t : Token) : Leaf := ⟨t, none⟩

def mark (m : Mark) : Leaf := of (.mark m)

def word (k : Keyword) : Leaf := of (.keyword k)

def ident (name : String) : Leaf := of (.ident name)

def Fits (l : Leaf) (lx : Lexeme) : Prop := lx.token = l.token ∧ ∀ p ∈ l.pos, lx.pos = p

/-- Fixes the position of the first of some leaves. -/
def placed (p : Pos) : List Leaf → List Leaf
  | [] => []
  | l :: ls => { l with pos := some p } :: ls

/-- Lists of leaves with commas between them. -/
def commas : List (List Leaf) → List Leaf
  | [] => []
  | [ls] => ls
  | ls :: lss => ls ++ mark .comma :: commas lss

end Leaf

/-- Tokens begin with some leaves, and these are the tokens after them. -/
def Spells : List Leaf → List Lexeme → List Lexeme → Prop
  | [], ts, rest => ts = rest
  | l :: ls, ts, rest => ∃ lx ts', ts = lx :: ts' ∧ l.Fits lx ∧ Spells ls ts' rest

/-- `return`, `argN`, `varN` or `tmpN`. -/
def Place.token : Place → Token
  | result => .keyword .ret
  | arg i => .arg i
  | var i => .var i
  | temp i => .temp i

namespace Tree

/-- A literal, by its spelling. -/
inductive Constant
  | int (spelling : String)
  | uint (spelling : String)
  | float (spelling : String)
  | str (spelling : String)
  | bool (value : Bool)

def Constant.token : Constant → Token
  | int s => .int s
  | uint s => .uint s
  | float s => .float s
  | str s => .str s
  | bool b => .bool b

/-- `lvalue | 'const' literal | 'const' IDENT` -/
inductive Operand
  | read (place : Place)
  | const (value : Constant)
  | item (name : String)

def Operand.leaves : Operand → List Leaf
  | read p => [.of p.token]
  | const c => [.word .const, .of c.token]
  | item name => [.word .const, .ident name]

/-- `IDENT | operand` -/
inductive Callee
  | bare (name : String)
  | operand (x : Operand)

def Callee.leaves : Callee → List Leaf
  | bare name => [.ident name]
  | operand x => x.leaves

/-- `operand | BINOP '(' operand ',' operand ')' | UNOP '(' operand ')'` -/
inductive Rvalue
  | use (x : Operand)
  | binary (op : BinOp) (x y : Operand)
  | unary (op : UnOp) (x : Operand)

def Rvalue.leaves : Rvalue → List Leaf
  | use x => x.leaves
  | binary op x y =>
    [.of (.binOp op), .mark .parenOpen] ++ x.leaves ++ [.mark .comma] ++ y.leaves ++ [.mark .parenClose]
  | unary op x => [.of (.unOp op), .mark .parenOpen] ++ x.leaves ++ [.mark .parenClose]

/-- `lvalue '=' rvalue ';' | 'drop' '(' lvalue ')' ';' | 'drop_deep' '(' lvalue ')' ';'` -/
inductive Action
  | assign (dest : Place) (value : Rvalue)
  | drop (kind : DropKind) (place : Place)

def dropWord : DropKind → Keyword
  | .free => .drop
  | .deep => .dropDeep

def Action.leaves : Action → List Leaf
  | assign p r => [.of p.token, .mark .eq] ++ r.leaves ++ [.mark .semi]
  | drop k p => [.word (dropWord k), .mark .parenOpen, .of p.token, .mark .parenClose, .mark .semi]

/-- `literal ':' LABEL` -/
structure Case where
  value : Constant
  target : String

def Case.leaves (c : Case) : List Leaf := [.of c.value.token, .mark .colon, .ident c.target]

/-- What stands between the cases that a comma follows and the closing bracket of a switch. -/
inductive Ending
  | nothing
  | last (c : Case)
  | otherwise (target : String)

def Ending.leaves : Ending → List Leaf
  | nothing => [.mark .squareClose]
  | last c => c.leaves ++ [.mark .squareClose]
  | otherwise l => [.word .otherwise, .mark .colon, .ident l, .mark .squareClose]

/-- `'return' ';' | 'goto' '->' LABEL ';' | 'diverge' ';' | 'panic' '->' LABEL ';'`, and
`'if' '(' operand ')' '->' '[' 'true' ':' LABEL ',' 'false' ':' LABEL ']' ';'`, and
`'switchInt' '(' lvalue ')' '->' '[' (case ',')* (case | 'otherwise' ':' LABEL)? ']' ';'`, and
`lvalue '=' 'call' callee '(' (operand (',' operand)*)? ')' '->' LABEL ';'` -/
inductive Transfer
  | ret
  | goto (target : String)
  | branch (cond : Operand) (onTrue onFalse : String)
  | switch (subject : Place) (cases : List Case) (ending : Ending)
  | call (dest : Place) (callee : Callee) (args : List Operand) (target : String)
  | diverge
  | panic (cleanup : String)

def Transfer.leaves : Transfer → List Leaf
  | ret => [.word .ret, .mark .semi]
  | goto l => [.word .goto, .mark .arrow, .ident l, .mark .semi]
  | branch c t e =>
    [.word .if_, .mark .parenOpen] ++ c.leaves ++
      [.mark .parenClose, .mark .arrow, .mark .squareOpen, .of (.bool true), .mark .colon, .ident t,
        .mark .comma, .of (.bool false), .mark .colon, .ident e, .mark .squareClose, .mark .semi]
  | switch p cases ending =>
    [.word .switchInt, .mark .parenOpen, .of p.token, .mark .parenClose, .mark .arrow, .mark .squareOpen] ++
      cases.flatMap (·.leaves ++ [.mark .comma]) ++ ending.leaves ++ [.mark .semi]
  | call p f xs l =>
    [.of p.token, .mark .eq, .word .call] ++ f.leaves ++ [.mark .parenOpen] ++
      Leaf.commas (xs.map Operand.leaves) ++ [.mark .parenClose, .mark .arrow, .ident l, .mark .semi]
  | diverge => [.word .diverge, .mark .semi]
  | panic l => [.word .panic, .mark .arrow, .ident l, .mark .semi]

structure Statement where
  action : Action
  pos : Pos

def Statement.leaves (s : Statement) : List Leaf := Leaf.placed s.pos s.action.leaves

structure Terminator where
  transfer : Transfer
  pos : Pos

def Terminator.leaves (t : Terminator) : List Leaf := Leaf.placed t.pos t.transfer.leaves

/-- `LABEL ':' '{' statement* terminator '}'` -/
structure Block where
  label : String
  statements : List Statement
  terminator : Terminator

def Block.leaves (b : Block) : List Leaf :=
  [.ident b.label, .mark .colon, .mark .curlyOpen] ++ b.statements.flatMap Statement.leaves ++
    b.terminator.leaves ++ [.mark .curlyClose]

/-- `'let' (VAR | TMP) ';'` -/
inductive Decl
  | var (index : UInt32)
  | temp (index : UInt32)

def Decl.token : Decl → Token
  | var i => .var i
  | temp i => .temp i

def Decl.leaves (d : Decl) : List Leaf := [.word .let_, .of d.token, .mark .semi]

/-- `IDENT '=' STRING` -/
structure AttrArg where
  key : String
  spelling : String

def AttrArg.leaves (a : AttrArg) : List Leaf := [.ident a.key, .mark .eq, .of (.str a.spelling)]

/-- `'#' '[' IDENT ('(' arg (',' arg)* ')')? ']'` -/
structure Attr where
  name : String
  args : List AttrArg

def Attr.argLeaves : List AttrArg → List Leaf
  | [] => []
  | as => [.mark .parenOpen] ++ Leaf.commas (as.map AttrArg.leaves) ++ [.mark .parenClose]

def Attr.leaves (a : Attr) : List Leaf :=
  [.mark .hash, .mark .squareOpen, .ident a.name] ++ argLeaves a.args ++ [.mark .squareClose]

/-- `attr* 'fn' IDENT '(' (ARG (',' ARG)*)? ')' '{' decl* block+ '}'` -/
structure Function where
  attrs : List Attr
  name : String
  params : List UInt32
  decls : List Decl
  blocks : List Block
  blocks_ne_nil : blocks ≠ []

def paramLeaves (i : UInt32) : List Leaf := [.of (.arg i)]

def Function.bodyLeaves (f : Function) : List Leaf :=
  f.decls.flatMap Decl.leaves ++ f.blocks.flatMap Block.leaves ++ [.mark .curlyClose]

def Function.leaves (f : Function) : List Leaf :=
  f.attrs.flatMap Attr.leaves ++ [.word .fn, .ident f.name, .mark .parenOpen] ++
    Leaf.commas (f.params.map paramLeaves) ++ [.mark .parenClose, .mark .curlyOpen] ++ f.bodyLeaves

end Tree

/-- `function*` -/
abbrev Tree := List Tree.Function

def Tree.leaves (t : Tree) : List Leaf := t.flatMap Tree.Function.leaves

end BlockIR
