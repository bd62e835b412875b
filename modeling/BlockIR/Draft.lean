import BlockIR.Module

/-!
# Drafts of bodies

A body is drafted block by block. Blocks are created before they are filled, so that jumps can name
blocks further on; statements and terminators go to the block that was switched to last. A finished
draft has a terminator in every block.
-/

namespace BlockIR

/-- A block that is being filled. -/
structure OpenBlock where
  statements : Array Statement
  terminator : Option Terminator
deriving DecidableEq

namespace OpenBlock

def empty : OpenBlock := ⟨#[], none⟩

def closed? (b : OpenBlock) : Option Block := b.terminator.map (⟨b.statements.toList, ·⟩)

end OpenBlock

/-- The misuses of a draft. -/
inductive DraftFault
  /-- There is no such argument. -/
  | noArgument
  /-- Switching to a block that was not created. -/
  | foreignBlock
  /-- Asking about a block that was not created. -/
  | noBlock (size index : Nat)
  /-- Appending before any block was switched to. -/
  | noneSelected
  | statementAfterEnd
  | secondEnd
deriving DecidableEq

def DraftFault.message : DraftFault → String
  | noArgument => "argument index out of range"
  | foreignBlock => "block is not from this builder"
  | noBlock size index =>
    "index out of bounds: the len is " ++ toString size ++ " but the index is " ++ toString index
  | noneSelected => "no block was selected with `switch_to`"
  | statementAfterEnd => "appending after a terminator"
  | secondEnd => "block already has a terminator"

structure Draft where
  args : UInt32
  vars : UInt32
  temps : UInt32
  blocks : Array OpenBlock
  current : Option BlockId
deriving DecidableEq

namespace Draft

def start (args : UInt32) : Draft := ⟨args, 0, 0, #[], none⟩

def arg (d : Draft) (i : UInt32) : Except DraftFault Place :=
  if i < d.args then .ok (.arg i) else .error .noArgument

/-- The next variable. -/
def declareVar (d : Draft) : Place × Draft := (.var d.vars, { d with vars := d.vars + 1 })

/-- The next temporary. -/
def declareTemp (d : Draft) : Place × Draft := (.temp d.temps, { d with temps := d.temps + 1 })

/-- The first block created is the one where execution begins. -/
def createBlock (d : Draft) : BlockId × Draft :=
  (Key.ofNat d.blocks.size, { d with blocks := d.blocks.push .empty })

/-- Creates as many blocks as asked for. -/
def createBlocks : Nat → Draft → Draft
  | 0, d => d
  | n + 1, d => createBlocks n d.createBlock.2

def switchTo (d : Draft) (b : BlockId) : Except DraftFault Draft :=
  if Key.toNat b < d.blocks.size then .ok { d with current := some b } else .error .foreignBlock

def isTerminated (d : Draft) (b : BlockId) : Except DraftFault Bool :=
  match d.blocks[Key.toNat b]? with
  | some block => .ok block.terminator.isSome
  | none => .error (.noBlock d.blocks.size (Key.toNat b))

/-- The block that is being filled, and its position. -/
def currentBlock (d : Draft) : Except DraftFault (Nat × OpenBlock) :=
  match d.current with
  | none => .error .noneSelected
  | some b =>
    match d.blocks[Key.toNat b]? with
    | some block => .ok (Key.toNat b, block)
    | none => .error (.noBlock d.blocks.size (Key.toNat b))

def append (d : Draft) (s : Statement) : Except DraftFault Draft := do
  let (i, block) ← d.currentBlock
  if block.terminator.isSome then .error .statementAfterEnd
  else .ok { d with blocks := d.blocks.modify i fun b => { b with statements := b.statements.push s } }

def terminate (d : Draft) (t : Terminator) : Except DraftFault Draft := do
  let (i, block) ← d.currentBlock
  if block.terminator.isSome then .error .secondEnd
  else .ok { d with blocks := d.blocks.modify i fun b => { b with terminator := some t } }

/-- The closed blocks, or the position of the first block that has no terminator. -/
def closeFrom (i : Nat) : List OpenBlock → Except Nat (List Block)
  | [] => .ok []
  | b :: bs =>
    match b.closed? with
    | none => .error i
    | some block =>
      match closeFrom (i + 1) bs with
      | .error j => .error j
      | .ok blocks => .ok (block :: blocks)

/-- The body that was drafted, or the first block that has no terminator. -/
def finish (d : Draft) : Except BlockId Body :=
  match closeFrom 0 d.blocks.toList with
  | .error i => .error (Key.ofNat i)
  | .ok blocks => .ok ⟨d.args, d.vars, d.temps, .ofList blocks⟩

/-- What is said of a block that was left without a terminator. -/
def unfinished (b : BlockId) : String := "block `" ++ b.text ++ "` has no terminator"

/-- The switch with these cases, and a block for all other values if one is given. -/
def switchTransfer (subject : Place) (cases : List (Constant × BlockId)) (otherwise : Option BlockId) :
    Transfer :=
  .switch subject (cases.map (·.1)) (cases.map (·.2) ++ otherwise.toList)

end Draft

end BlockIR
