import BlockIR.Arena
import BlockIR.Binary64

/-!
# Places, constants, operands and operators

What the statements of a block are made of. Locals have no types: a place is one of the sections of a
frame and a position in that section.
-/

namespace BlockIR

/-- Names a function of a module. -/
structure FuncId where
  index : UInt32
deriving DecidableEq

/-- Names a block of a body. -/
structure BlockId where
  index : UInt32
deriving DecidableEq

instance : Key FuncId := ⟨FuncId.mk, FuncId.index, fun _ => rfl, fun _ => rfl⟩

instance : Key BlockId := ⟨BlockId.mk, BlockId.index, fun _ => rfl, fun _ => rfl⟩

/-- Execution of a body begins at its first block. -/
def BlockId.entry : BlockId := ⟨0⟩

def FuncId.text (f : FuncId) : String := "fn" ++ toString f.index.toNat

def BlockId.text (b : BlockId) : String := "bb" ++ toString b.index.toNat

def BlockId.debugText (b : BlockId) : String := Key.debugText "Block" b

/-- A slot of the current frame. -/
inductive Place
  | result
  | arg (index : UInt32)
  | var (index : UInt32)
  | temp (index : UInt32)
deriving DecidableEq

inductive Constant
  | int (value : Int64)
  | uint (value : UInt64)
  | float (value : Binary64)
  | str (value : String)
  | bool (value : Bool)
deriving DecidableEq

/-- What the messages call a constant of each kind. -/
def Constant.kind : Constant → String
  | .int _ => "integer"
  | .uint _ => "unsigned integer"
  | .float _ => "float"
  | .str _ => "string"
  | .bool _ => "bool"

/-- An input of an rvalue, a call or a condition. -/
inductive Operand
  | read (place : Place)
  | const (value : Constant)
  | func (id : FuncId)
deriving DecidableEq

namespace Operand

def int (n : Int64) : Operand := .const (.int n)

def bool (b : Bool) : Operand := .const (.bool b)

end Operand

inductive BinOp
  | add | sub | mul | div | rem | bitXor | bitAnd | bitOr | shl | shr | eq | lt | le | ne | ge | gt
deriving DecidableEq

namespace BinOp

def all : List BinOp :=
  [add, sub, mul, div, rem, bitXor, bitAnd, bitOr, shl, shr, eq, lt, le, ne, ge, gt]

def name : BinOp → String
  | add => "Add"
  | sub => "Sub"
  | mul => "Mul"
  | div => "Div"
  | rem => "Rem"
  | bitXor => "BitXor"
  | bitAnd => "BitAnd"
  | bitOr => "BitOr"
  | shl => "Shl"
  | shr => "Shr"
  | eq => "Eq"
  | lt => "Lt"
  | le => "Le"
  | ne => "Ne"
  | ge => "Ge"
  | gt => "Gt"

def isComparison : BinOp → Bool
  | eq | lt | le | ne | ge | gt => true
  | _ => false

theorem mem_all (op : BinOp) : op ∈ all := by cases op <;> decide

end BinOp

inductive UnOp
  | not | neg
deriving DecidableEq

namespace UnOp

def all : List UnOp := [not, neg]

def name : UnOp → String
  | not => "Not"
  | neg => "Neg"

theorem mem_all (op : UnOp) : op ∈ all := by cases op <;> decide

end UnOp

/-- The right-hand side of an assignment. -/
inductive Rvalue
  | use (operand : Operand)
  | binary (op : BinOp) (lhs rhs : Operand)
  | unary (op : UnOp) (operand : Operand)
deriving DecidableEq

end BlockIR
