import BlockIR.Machine.Value

/-!
# Operators on values

Integers are signed 64-bit words and their arithmetic is checked. Booleans are compared, with `false`
the smaller one, and combined bit by bit. No other values have operators.
-/

namespace BlockIR

/-- The value of a constant; only integers and booleans have one. -/
def Constant.value : Constant → Except Fault Value
  | .int n => .ok (.int n)
  | .bool b => .ok (.bool b)
  | c => .error (.unsupported c.kind)

namespace BinOp

/-- The wrapped result of an operator, if it is the exact one. -/
def checked (op : BinOp) (wrapped : Int64) (exact : Int) : Except Fault Value :=
  if wrapped.toInt = exact then .ok (.int wrapped) else .error (.overflow op.name)

/-- The result of a division. The least integer has no quotient by -1. -/
def divided (op : BinOp) (l r result : Int64) : Except Fault Value :=
  if r = 0 then .error .divisionByZero
  else if l = Int64.minValue ∧ r = -1 then .error (.overflow op.name)
  else .ok (.int result)

/-- The result of a shift, of which the amount has to be less than the width of a word. -/
def shifted (op : BinOp) (amount result : Int64) : Except Fault Value :=
  if 0 ≤ amount ∧ amount < 64 then .ok (.int result) else .error (.overflow op.name)

def evalInt (op : BinOp) (l r : Int64) : Except Fault Value :=
  match op with
  | add => checked op (l + r) (l.toInt + r.toInt)
  | sub => checked op (l - r) (l.toInt - r.toInt)
  | mul => checked op (l * r) (l.toInt * r.toInt)
  | div => divided op l r (l / r)
  | rem => divided op l r (l % r)
  | bitXor => .ok (.int (l ^^^ r))
  | bitAnd => .ok (.int (l &&& r))
  | bitOr => .ok (.int (l ||| r))
  | shl => shifted op r (l <<< r)
  | shr => shifted op r (l >>> r)
  | eq => .ok (.bool (l = r))
  | ne => .ok (.bool (l ≠ r))
  | lt => .ok (.bool (l < r))
  | le => .ok (.bool (l ≤ r))
  | gt => .ok (.bool (r < l))
  | ge => .ok (.bool (r ≤ l))

/-- The result of an operator on booleans, if it has one. -/
def evalBool? (op : BinOp) (l r : Bool) : Option Bool :=
  match op with
  | eq => some (l == r)
  | ne => some (l != r)
  | lt => some (!l && r)
  | le => some (!l || r)
  | gt => some (l && !r)
  | ge => some (l || !r)
  | bitAnd => some (l && r)
  | bitOr => some (l || r)
  | bitXor => some (l != r)
  | _ => none

def eval (op : BinOp) (x y : Value) : Except Fault Value :=
  match x, y with
  | .int l, .int r => evalInt op l r
  | .bool l, .bool r =>
    match evalBool? op l r with
    | some b => .ok (.bool b)
    | none => .error (.invalidOperands op.name x y)
  | _, _ => .error (.invalidOperands op.name x y)

end BinOp

/-- The result of a unary operator; the least integer has no negative. -/
def UnOp.eval (op : UnOp) (x : Value) : Except Fault Value :=
  match op, x with
  | not, .int n => .ok (.int (~~~n))
  | not, .bool b => .ok (.bool (!b))
  | neg, .int n => if n = Int64.minValue then .error (.overflow op.name) else .ok (.int (-n))
  | _, _ => .error (.invalidOperand op.name x)

end BlockIR
