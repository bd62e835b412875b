import BlockIR.Operand

/-!
# Tokens

The words of the text form. A literal keeps its spelling, which the reader of constants interprets.
-/

namespace BlockIR

inductive Keyword
  | ret | fn | let_ | const | drop | dropDeep | goto | if_ | switchInt | otherwise | call | diverge | panic
deriving DecidableEq

inductive Mark
  | hash | curlyOpen | curlyClose | parenOpen | parenClose | squareOpen | squareClose | eq | colon | semi
  | comma | arrow
deriving DecidableEq

inductive Token
  | ident (name : String)
  | arg (index : UInt32)
  | var (index : UInt32)
  | temp (index : UInt32)
  | keyword (word : Keyword)
  | binOp (op : BinOp)
  | unOp (op : UnOp)
  | bool (value : Bool)
  | int (spelling : String)
  | uint (spelling : String)
  | float (spelling : String)
  /-- The characters between the quotes, escapes as they stand. -/
  | str (spelling : String)
  | mark (mark : Mark)
  /-- Characters that begin no token. -/
  | unknown (spelling : String)
deriving DecidableEq

/-- Where a token stands: its line and column, counted from 1, and its length in characters. -/
structure Span where
  line : Nat
  col : Nat
  len : Nat
deriving DecidableEq

namespace Span

/-- Lines are counted up to here; a token further on is said to be on this line. -/
def maxLine : Nat := UInt32.size - 1

/-- Columns and lengths are counted up to here. -/
def maxCol : Nat := UInt16.size - 1

def clamped (line col len : Nat) : Span := ⟨min line maxLine, min col maxCol, min len maxCol⟩

end Span

/-- A token and where it stands. -/
structure Lexeme where
  token : Token
  span : Span
deriving DecidableEq

end BlockIR
