import BlockIR.Machine.Basic

/-!
# Runs

A step carries out one statement or one terminator: it is first found out what the step does, which can
fail, and then done, which cannot. Calls of the program do not nest runs. A call pushes a frame that
remembers where its result goes, and a return goes on in the frame below.
-/

namespace BlockIR

/-- Where in the innermost frame a run is: at the start of its block, or before the rest of a block. -/
inductive Control
  | start
  | within (block : BlockId) (rest : List Statement) (terminator : Terminator)

/-- What a terminator does. -/
inductive Move
  | jump (target : BlockId)
  | enter (frame : Frame) (args : List Value)
  | leave (result : Value)

/-- What a step leads to. -/
inductive Progress
  | running (control : Control) (machine : Machine)
  | returned (value : Value) (machine : Machine)
  | failed (fault : Fault) (machine : Machine)

/-- How a run ends; it is unfinished if the steps it was given did not suffice. -/
inductive Outcome
  | returned (value : Value)
  | failed (fault : Fault)
  | unfinished
deriving DecidableEq

/-- The position of the first constant that is equal to a value, or their number if there is none. The
constants after it are not looked at. -/
def firstMatch (v : Value) : List Constant → Except Fault Nat
  | [] => .ok 0
  | c :: cs => do
    if (← c.value) = v then return 0
    else return (← firstMatch v cs) + 1

namespace Config

/-- The step limit, if it is exceeded. -/
def exceeded? (c : Config) (steps : Nat) : Option Nat := c.stepLimit.filter (· < steps)

/-- The most steps that are counted. -/
def maxSteps : Nat := UInt64.size - 1

/-- How many steps a run is given: with a limit, one more than it allows. -/
def fuel (c : Config) : Nat :=
  match c.stepLimit with
  | some limit => limit + 1
  | none => maxSteps

end Config

namespace Machine

/-- The block that a branch goes on at. -/
def branchTarget (s : Machine) (c : Operand) (onTrue onFalse : BlockId) : Except Fault BlockId := do
  match ← s.operand c with
  | .bool b => return if b then onTrue else onFalse
  | v => .error (.nonBooleanCondition v)

/-- The block that a switch goes on at. -/
def switchTarget (s : Machine) (p : Place) (cases : List Constant) (targets : List BlockId) :
    Except Fault BlockId := do
  let v ← s.readPlace p
  match targets[← firstMatch v cases]? with
  | some b => return b
  | none => .error (.noMatchingCase v)

/-- The frame and the arguments of a call. -/
def callMove (x : Setting) (s : Machine) (p : Place) (callee : Operand) (args : List Operand)
    (target : BlockId) : Except Fault Move := do
  let i ← s.slot p
  match ← s.operand callee with
  | .func f =>
    let vs ← args.mapM s.operand
    return .enter (← s.newFrame x f vs (some (i, target))) vs
  | v => .error (.nonFunctionCall v)

def move (x : Setting) (s : Machine) : Transfer → Except Fault Move
  | .ret => do return .leave (← s.readPlace .result)
  | .goto b => .ok (.jump b)
  | .branch c t e => do return .jump (← s.branchTarget c t e)
  | .switch p cases targets => do return .jump (← s.switchTarget p cases targets)
  | .call p callee args target => s.callMove x p callee args target
  | .diverge => .error .diverged
  | .panic _ => .error .panicked

/-- Returns a value from the innermost frame. The run goes on in the frame below if that belongs to it,
which is the case if more than `base` frames are left. -/
def return_ (x : Setting) (base : Nat) (v : Value) (s : Machine) : Progress :=
  match s.calls.top? with
  | none => .failed .noFrame s
  | some fr =>
    let s := s.leave x fr
    match fr.returnTo with
    | some (i, b) =>
      if base < s.depth then .running .start ((s.writeSlot i v).jump b) else .returned v s
    | none => .returned v s

def apply (x : Setting) (base : Nat) (s : Machine) : Move → Progress
  | .jump b => .running .start (s.jump b)
  | .enter fr args => .running .start (s.enter x fr args)
  | .leave v => s.return_ x base v

/-- Carries out the first of these statements, or the terminator if there are none. The step is counted
first, and then recorded. -/
def execute (x : Setting) (base : Nat) (name : BlockId) (rest : List Statement) (t : Terminator)
    (s : Machine) : Progress :=
  let s := { s with steps := s.steps + 1 }
  match x.config.exceeded? s.steps with
  | some limit => .failed (.stepLimit limit) s
  | none =>
    match rest with
    | st :: rest =>
      let s := s.record (.executing name (.inl st.action))
      match s.write? st.action with
      | .error f => .failed f s
      | .ok none => .running (.within name rest t) s
      | .ok (some (i, v)) => .running (.within name rest t) (s.writeSlot i v)
    | [] =>
      let s := s.record (.executing name (.inr t.transfer))
      match s.move x t.transfer with
      | .error f => .failed f s
      | .ok m => s.apply x base m

/-- The block that the innermost frame is at. -/
def currentBlock (x : Setting) (s : Machine) : Except Fault (BlockId × Block) :=
  match s.calls.top? with
  | none => .error .noFrame
  | some fr =>
    match x.module.get? fr.func with
    | none => .error (.unknownFunction fr.func.text)
    | some function =>
      match function.body.blocks.get? fr.block with
      | none => .error (.unknownBlock fr.block.text)
      | some b => .ok (fr.block, b)

def step (x : Setting) (base : Nat) : Control → Machine → Progress
  | .start, s =>
    match s.currentBlock x with
    | .error f => .failed f s
    | .ok (name, b) => s.execute x base name b.statements b.terminator
  | .within name rest t, s => s.execute x base name rest t

/-- Runs until the frame above the `base` outermost ones returns. -/
def run (x : Setting) (base : Nat) : Nat → Control → Machine → Outcome × Machine
  | 0, _, s => (.unfinished, s)
  | fuel + 1, c, s =>
    match s.step x base c with
    | .running c s => run x base fuel c s
    | .returned v s => (.returned v, s)
    | .failed f s => (.failed f, s)

/-- A call begins to count steps anew if there is no frame yet. -/
def beginCall (s : Machine) : Machine := if s.depth = 0 then { s with steps := 0 } else s

/-- Calls a function and runs it for some number of steps. Unless it returns, all its frames are removed
again. -/
def callFor (x : Setting) (fuel : Nat) (f : FuncId) (args : List Value) (s : Machine) :
    Outcome × Machine :=
  let depth := s.depth
  let size := s.values.size
  let s := s.beginCall
  match s.newFrame x f args none with
  | .error fault => (.failed fault, s)
  | .ok fr =>
    match run x depth fuel .start (s.enter x fr args) with
    | (.returned v, s) => (.returned v, s)
    | (o, s) => (o, s.truncate depth size)

/-- Calls a function. A run without a step limit ends when its steps can no longer be counted. -/
def call (x : Setting) (f : FuncId) (args : List Value) (s : Machine) : Except Fault Value × Machine :=
  match s.callFor x x.config.fuel f args with
  | (.returned v, s) => (.ok v, s)
  | (.failed fault, s) => (.error fault, s)
  | (.unfinished, s) => (.error (.stepLimit Config.maxSteps), s)

/-- Calls the function of a name. -/
def callNamed (x : Setting) (name : String) (args : List Value) (s : Machine) :
    Except Fault Value × Machine :=
  match x.module.find? name with
  | none => (.error (.unknownFunction name), s)
  | some f => s.call x f args

end Machine

end BlockIR
