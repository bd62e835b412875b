import BlockIR.Draft

/-!
# Edits

The operations on a draft, one after another, and how a finished draft becomes the body of a function.
-/

namespace BlockIR

/-- An operation on a draft. What is appended to a block comes with its position. -/
inductive Edit
  | arg (index : UInt32)
  | declareVar
  | declareTemp
  | createBlock
  | switchTo (block : BlockId)
  | isTerminated (block : BlockId)
  | assign (dest : Place) (value : Rvalue) (pos : Pos)
  | drop (kind : DropKind) (place : Place) (pos : Pos)
  | ret (pos : Pos)
  | goto (target : BlockId) (pos : Pos)
  | branch (cond : Operand) (onTrue onFalse : BlockId) (pos : Pos)
  | switch (subject : Place) (cases : List (Constant × BlockId)) (otherwise : Option BlockId) (pos : Pos)
  | call (dest : Place) (callee : Operand) (args : List Operand) (target : BlockId) (pos : Pos)
  | diverge (pos : Pos)
  | panic (cleanup : BlockId) (pos : Pos)
deriving DecidableEq

namespace Draft

/-- The draft after an edit. A question changes nothing, but may be misused. -/
def edit (d : Draft) : Edit → Except DraftFault Draft
  | .arg i => do
    discard <| d.arg i
    return d
  | .declareVar => .ok d.declareVar.2
  | .declareTemp => .ok d.declareTemp.2
  | .createBlock => .ok d.createBlock.2
  | .switchTo b => d.switchTo b
  | .isTerminated b => do
    discard <| d.isTerminated b
    return d
  | .assign p r pos => d.append ⟨.assign p r, pos⟩
  | .drop kind p pos => d.append ⟨.drop kind p, pos⟩
  | .ret pos => d.terminate ⟨.ret, pos⟩
  | .goto b pos => d.terminate ⟨.goto b, pos⟩
  | .branch cond onTrue onFalse pos => d.terminate ⟨.branch cond onTrue onFalse, pos⟩
  | .switch subject cases otherwise pos => d.terminate ⟨switchTransfer subject cases otherwise, pos⟩
  | .call dest callee args target pos => d.terminate ⟨.call dest callee args target, pos⟩
  | .diverge pos => d.terminate ⟨.diverge, pos⟩
  | .panic b pos => d.terminate ⟨.panic b, pos⟩

/-- The draft of a body with these arguments after some edits. -/
def ofEdits (args : UInt32) (es : List Edit) : Except DraftFault Draft := es.foldlM edit (start args)

end Draft

/-- Gives a function the body that was drafted. If a block has no terminator, it is named, and nothing changes. -/
def Module.install (m : Module) (f : FuncId) (d : Draft) : Except BlockId FuncId × Module :=
  match d.finish with
  | .ok body => (.ok f, m.define f body)
  | .error b => (.error b, m)

end BlockIR
