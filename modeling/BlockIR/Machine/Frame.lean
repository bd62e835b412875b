import BlockIR.Module
import BlockIR.Machine.Value

/-!
# Frames and the call stack

Every activation of a function has a frame, a stretch of the value stack: the slot of the result, then
the arguments, the variables and the temporaries.
-/

namespace BlockIR

structure Frame where
  func : FuncId
  /-- Where in the value stack the slots begin. -/
  offset : Nat
  args : Nat
  vars : Nat
  temps : Nat
  /-- The block that is executed. -/
  block : BlockId
  /-- The slot that takes the result and the block at which the caller goes on. -/
  returnTo : Option (Nat × BlockId)
deriving DecidableEq

namespace Frame

/-- A frame that is about to execute a body. -/
def ofBody (f : FuncId) (b : Body) (offset : Nat) (returnTo : Option (Nat × BlockId)) : Frame :=
  ⟨f, offset, b.args.toNat, b.vars.toNat, b.temps.toNat, .entry, returnTo⟩

def size (fr : Frame) : Nat := 1 + fr.args + fr.vars + fr.temps

/-- The slot of a place, if the frame has it. -/
def slot? (fr : Frame) : Place → Option Nat
  | .result => some fr.offset
  | .arg i => if i.toNat < fr.args then some (fr.offset + 1 + i.toNat) else none
  | .var i => if i.toNat < fr.vars then some (fr.offset + 1 + fr.args + i.toNat) else none
  | .temp i => if i.toNat < fr.temps then some (fr.offset + 1 + fr.args + fr.vars + i.toNat) else none

/-- What the slots of a new frame hold. -/
def initialSlots (fr : Frame) (args : List Value) : List Value :=
  .uninit :: args ++ List.replicate (fr.vars + fr.temps) .uninit

end Frame

/-- The frames, the innermost first, and their number. -/
structure CallStack where
  frames : List Frame
  depth : Nat
  depth_eq : depth = frames.length
deriving DecidableEq

namespace CallStack

def empty : CallStack := ⟨[], 0, rfl⟩

def push (fr : Frame) (s : CallStack) : CallStack :=
  ⟨fr :: s.frames, s.depth + 1, by simp [s.depth_eq]⟩

def top? (s : CallStack) : Option Frame := s.frames.head?

def pop (s : CallStack) : CallStack := ⟨s.frames.tail, s.depth - 1, by simp [s.depth_eq]⟩

/-- Removes the innermost frames until no more than `n` are left. -/
def truncate (n : Nat) (s : CallStack) : CallStack :=
  ⟨s.frames.drop (s.depth - n), min s.depth n, by simp [s.depth_eq]; omega⟩

/-- Makes the innermost frame execute another block. -/
def jump (b : BlockId) (s : CallStack) : CallStack :=
  match s with
  | ⟨[], n, h⟩ => ⟨[], n, h⟩
  | ⟨fr :: frs, n, h⟩ => ⟨{ fr with block := b } :: frs, n, h⟩

theorem ext_frames {s t : CallStack} (h : s.frames = t.frames) : s = t := by
  cases s; cases t; simp_all

end CallStack

end BlockIR
