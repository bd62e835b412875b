import BlockIR.Operand

/-!
# Bodies

A body is a table of basic blocks and the number of locals of each kind. A block is a list of
statements and one terminator.
-/

namespace BlockIR

/-- A position in a source text, counted from 1. Line 0 is that of code that came from no text. -/
structure Pos where
  line : UInt32
  col : UInt32
deriving DecidableEq

namespace Pos

def none : Pos := ⟨0, 0⟩

def isFake (p : Pos) : Bool := p.line = 0

end Pos

/-- How much of a value a drop asks to tear down. -/
inductive DropKind
  | free | deep
deriving DecidableEq

inductive Action
  | assign (dest : Place) (value : Rvalue)
  | drop (kind : DropKind) (place : Place)
deriving DecidableEq

structure Statement where
  action : Action
  pos : Pos
deriving DecidableEq

/-- The ways in which control leaves a block. The targets of a `switch` are one block for each case and
perhaps one more, which is taken when no case matches. -/
inductive Transfer
  | ret
  | goto (target : BlockId)
  | branch (cond : Operand) (onTrue onFalse : BlockId)
  | switch (subject : Place) (cases : List Constant) (targets : List BlockId)
  | call (dest : Place) (callee : Operand) (args : List Operand) (target : BlockId)
  | diverge
  | panic (cleanup : BlockId)
deriving DecidableEq

namespace Transfer

/-- The blocks that control can go on to. -/
def successors : Transfer → List BlockId
  | ret | diverge => []
  | goto target | call _ _ _ target | panic target => [target]
  | branch _ onTrue onFalse => [onTrue, onFalse]
  | switch _ _ targets => targets

/-- Whether a `switch` has a block for values that match no case. -/
def hasOtherwise : Transfer → Bool
  | switch _ cases targets => targets.length = cases.length + 1
  | _ => false

end Transfer

structure Terminator where
  transfer : Transfer
  pos : Pos
deriving DecidableEq

structure Block where
  statements : List Statement
  terminator : Terminator
deriving DecidableEq

structure Body where
  args : UInt32
  vars : UInt32
  temps : UInt32
  blocks : Arena BlockId Block
deriving DecidableEq

namespace Body

/-- The body of a function that was only declared. -/
def undefined : Body := ⟨0, 0, 0, .empty⟩

/-- The number of slots of a frame: the result, the arguments, the variables and the temporaries. -/
def frameSize (b : Body) : Nat := 1 + b.args.toNat + b.vars.toNat + b.temps.toNat

/-- Whether a place is one of the locals that the body declares. -/
def declares (b : Body) : Place → Bool
  | .result => true
  | .arg i => i < b.args
  | .var i => i < b.vars
  | .temp i => i < b.temps

def isEmpty (b : Body) : Bool := !b.blocks.contains .entry

end Body

end BlockIR
