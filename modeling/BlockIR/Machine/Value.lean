import BlockIR.Operand

/-!
# Values and faults

The values that a program works with, and the ways in which a run can fail.
-/

namespace BlockIR

inductive Value
  /-- What a slot holds until it is written to. -/
  | uninit
  | bool (value : Bool)
  | int (value : Int64)
  | func (id : FuncId)
deriving DecidableEq

namespace Value

def kind : Value → String
  | uninit => "uninit"
  | bool _ => "bool"
  | int _ => "int"
  | func _ => "function"

def asBool? : Value → Option Bool
  | bool b => some b
  | _ => none

def asInt? : Value → Option Int64
  | int n => some n
  | _ => none

def text : Value → String
  | uninit => "Uninit"
  | bool b => "Bool(" ++ (if b then "true" else "false") ++ ")"
  | int n => "Int(" ++ toString n.toInt ++ ")"
  | func f => "Func(" ++ toString f.index.toNat ++ ")"

end Value

/-- The name of a place in messages about undeclared locals. -/
def Place.debugText : Place → String
  | result => "ReturnPointer"
  | arg i => "Arg(" ++ toString i.toNat ++ ")"
  | var i => "Var(" ++ toString i.toNat ++ ")"
  | temp i => "Temp(" ++ toString i.toNat ++ ")"

/-- Why a run fails. -/
inductive Fault
  | nonBooleanCondition (value : Value)
  | noMatchingCase (value : Value)
  | nonFunctionCall (value : Value)
  | diverged
  | panicked
  | noFrame
  | undeclaredLocal (place : Place)
  | overflow (op : String)
  | divisionByZero
  | invalidOperands (op : String) (lhs rhs : Value)
  | invalidOperand (op : String) (value : Value)
  | unsupported (kind : String)
  | stackOverflow (limit : Nat)
  | stepLimit (limit : Nat)
  | argumentCount (function : String) (expected given : Nat)
  | unknownFunction (name : String)
  | unknownBlock (name : String)
deriving DecidableEq

def Fault.message : Fault → String
  | nonBooleanCondition v => "non-boolean `if` condition value: " ++ v.text
  | noMatchingCase v => "discriminant " ++ v.text ++ " matched no values"
  | nonFunctionCall v => "tried to call a non-function value: " ++ v.text
  | diverged => "reached a `diverge` terminator"
  | panicked => "reached a `panic` terminator"
  | noFrame => "tried to access a local without an active stack frame"
  | undeclaredLocal p => "use of undeclared local `" ++ p.debugText ++ "`"
  | overflow op => "arithmetic overflow in `" ++ op ++ "`"
  | divisionByZero => "attempted to divide by zero"
  | invalidOperands op x y => "invalid operands for `" ++ op ++ "`: " ++ x.text ++ " and " ++ y.text
  | invalidOperand op v => "invalid operand for `" ++ op ++ "`: " ++ v.text
  | unsupported kind => "unsupported " ++ kind ++ " constant"
  | stackOverflow limit => "stack overflow, call depth exceeded the limit of " ++ toString limit
  | stepLimit limit => "step limit of " ++ toString limit ++ " exceeded"
  | argumentCount f expected given =>
    "`" ++ f ++ "` takes " ++ toString expected ++ " argument(s) but " ++ toString given ++ " were given"
  | unknownFunction name => "call to nonexistent function `" ++ name ++ "`"
  | unknownBlock name => "jump to nonexistent block `" ++ name ++ "`"

end BlockIR
