import BlockIR.Machine.Arithmetic
import BlockIR.Machine.Frame

/-!
# The machine

A machine has a call stack, a value stack that all frames share, and a count of the steps of the current
run. Its operations read and write slots, evaluate operands, and push and pop frames.
-/

namespace BlockIR

/-- The limits of a run. -/
structure Config where
  /-- How many frames there can be at once. -/
  maxDepth : Nat
  /-- How many steps a run can take, if it is limited. -/
  stepLimit : Option Nat
deriving DecidableEq

namespace Config

def defaultMaxDepth : Nat := 1024

def default : Config := ⟨defaultMaxDepth, none⟩

end Config

/-- What a machine runs, and within which limits. -/
structure Setting where
  module : Module
  config : Config

/-- What a machine does that can be watched. -/
inductive Event
  | starting (function : String)
  | failed (function : String) (fault : Fault)
  | pushed (function : String) (depth offset : Nat)
  | popped (function : String) (depth : Nat)
  | executing (block : BlockId) (code : Action ⊕ Transfer)
deriving DecidableEq

structure Machine where
  calls : CallStack
  values : Array Value
  steps : Nat
  /-- The events so far, the latest first, if they are recorded. -/
  log : Option (List Event)
deriving DecidableEq

namespace Machine

/-- A machine without frames. -/
def fresh : Machine := ⟨.empty, #[], 0, none⟩

/-- A machine without frames that records its events. -/
def watched : Machine := { fresh with log := some [] }

/-- The recorded events in order. -/
def events (s : Machine) : List Event := (s.log.getD []).reverse

def record (e : Event) (s : Machine) : Machine := { s with log := s.log.map (e :: ·) }

def depth (s : Machine) : Nat := s.calls.depth

/-- A slot beyond the value stack reads as one that was never written. -/
def readSlot (s : Machine) (i : Nat) : Value := s.values.getD i .uninit

/-- Writing beyond the value stack changes nothing. -/
def writeSlot (i : Nat) (v : Value) (s : Machine) : Machine :=
  { s with values := s.values.setIfInBounds i v }

/-- The slot of a place of the innermost frame. -/
def slot (s : Machine) (p : Place) : Except Fault Nat :=
  match s.calls.top? with
  | none => .error .noFrame
  | some fr =>
    match fr.slot? p with
    | some i => .ok i
    | none => .error (.undeclaredLocal p)

def readPlace (s : Machine) (p : Place) : Except Fault Value := do return s.readSlot (← s.slot p)

def operand (s : Machine) : Operand → Except Fault Value
  | .read p => s.readPlace p
  | .const c => c.value
  | .func f => .ok (.func f)

def rvalue (s : Machine) : Rvalue → Except Fault Value
  | .use x => s.operand x
  | .binary op x y => do op.eval (← s.operand x) (← s.operand y)
  | .unary op x => do op.eval (← s.operand x)

/-- The frame for a call of a function, if the call is possible. -/
def newFrame (x : Setting) (f : FuncId) (args : List Value) (returnTo : Option (Nat × BlockId))
    (s : Machine) : Except Fault Frame :=
  match x.module.get? f with
  | none => .error (.unknownFunction f.text)
  | some function =>
    let expected := function.body.args.toNat
    if args.length ≠ expected then .error (.argumentCount function.name expected args.length)
    else if x.config.maxDepth ≤ s.depth then .error (.stackOverflow x.config.maxDepth)
    else .ok (.ofBody f function.body s.values.size returnTo)

/-- What the function of a frame is called. -/
def nameOf (x : Setting) (f : FuncId) : String :=
  match x.module.get? f with
  | some function => function.name
  | none => "<unknown>"

/-- Puts a frame on the stacks, with its arguments set and its other slots not. -/
def enter (x : Setting) (fr : Frame) (args : List Value) (s : Machine) : Machine :=
  record (.pushed (nameOf x fr.func) (s.depth + 1) fr.offset)
    { s with calls := s.calls.push fr, values := s.values ++ fr.initialSlots args }

/-- Takes the innermost frame off the stacks: the value stack ends where that frame began. -/
def leave (x : Setting) (fr : Frame) (s : Machine) : Machine :=
  record (.popped (nameOf x fr.func) (s.depth - 1))
    { s with calls := s.calls.pop, values := s.values.shrink fr.offset }

def push (x : Setting) (f : FuncId) (args : List Value) (returnTo : Option (Nat × BlockId))
    (s : Machine) : Except Fault Machine := do
  let fr ← s.newFrame x f args returnTo
  return s.enter x fr args

def pop (x : Setting) (s : Machine) : Except Fault (Frame × Machine) :=
  match s.calls.top? with
  | none => .error .noFrame
  | some fr => .ok (fr, s.leave x fr)

/-- Removes all frames above a depth and all slots above a size. -/
def truncate (depth size : Nat) (s : Machine) : Machine :=
  { s with calls := s.calls.truncate depth, values := s.values.shrink size }

def jump (b : BlockId) (s : Machine) : Machine := { s with calls := s.calls.jump b }

/-- What a statement writes, and where. There is no heap, so a drop only needs its place to exist. -/
def write? (s : Machine) : Action → Except Fault (Option (Nat × Value))
  | .assign p r => do return some (← s.slot p, ← s.rvalue r)
  | .drop _ p => do
    discard <| s.slot p
    return none

end Machine

end BlockIR
