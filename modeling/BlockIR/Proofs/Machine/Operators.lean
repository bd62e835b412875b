import BlockIR.Machine.Arithmetic
import Mathlib.Tactic.Common

/-!
# What constants and operators give

Integers and booleans are all that they give, and the only faults that they raise are their own.
-/

namespace BlockIR

/-- The faults of constants and operators. -/
def Fault.isOperation : Fault → Bool
  | overflow _ | divisionByZero | invalidOperands _ _ _ | invalidOperand _ _ | unsupported _ => true
  | _ => false

/-- An integer, a boolean, or a fault of a constant or an operator. -/
inductive Computed : Except Fault Value → Prop
  | int (n : Int64) : Computed (.ok (.int n))
  | bool (b : Bool) : Computed (.ok (.bool b))
  | fault {e : Fault} (h : e.isOperation) : Computed (.error e)

lemma Constant.computed_value (c : Constant) : Computed c.value := by
  cases c with
  | int n => exact .int n
  | bool b => exact .bool b
  | uint n => exact .fault rfl
  | float x => exact .fault rfl
  | str s => exact .fault rfl

namespace BinOp

variable (op : BinOp)

lemma computed_checked (w : Int64) (n : Int) : Computed (op.checked w n) := by
  unfold checked
  split_ifs
  · exact .int w
  · exact .fault rfl

lemma computed_divided (l r w : Int64) : Computed (op.divided l r w) := by
  unfold divided
  split_ifs
  · exact .fault rfl
  · exact .fault rfl
  · exact .int w

lemma computed_shifted (amount w : Int64) : Computed (op.shifted amount w) := by
  unfold shifted
  split_ifs
  · exact .int w
  · exact .fault rfl

lemma computed_evalInt (l r : Int64) : Computed (op.evalInt l r) := by
  cases op with
  | add | sub | mul => exact computed_checked _ _ _
  | div | rem => exact computed_divided _ l r _
  | shl | shr => exact computed_shifted _ r _
  | bitXor | bitAnd | bitOr => exact .int _
  | eq | ne | lt | le | gt | ge => exact .bool _

lemma computed_eval (v w : Value) : Computed (op.eval v w) := by
  unfold eval
  split
  · exact op.computed_evalInt _ _
  · split
    · exact .bool _
    · exact .fault rfl
  · exact .fault rfl

end BinOp

lemma UnOp.computed_eval (op : UnOp) (v : Value) : Computed (op.eval v) := by
  unfold eval
  split
  · exact .int _
  · exact .bool _
  · split_ifs
    · exact .fault rfl
    · exact .int _
  · exact .fault rfl

end BlockIR
