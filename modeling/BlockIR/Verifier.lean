import BlockIR.Printer

/-!
# Well-formed modules

The checks that a module has to pass before it is run. A module that passes uses only locals that it
declares, blocks and functions that exist, and calls functions it names with the right number of
arguments.
-/

namespace BlockIR

/-- What can be wrong with a module. -/
inductive Flaw
  | noBlocks (function : String)
  | undeclaredLocal (place : Place) (function : String)
  | missingFunction (id : FuncId)
  | missingBlock (id : BlockId)
  | switchShape (cases targets : Nat)
  | argumentCount (callee : String) (given expected : Nat)
deriving DecidableEq

def Flaw.message : Flaw → String
  | noBlocks f => "function `" ++ f ++ "` has no basic blocks"
  | undeclaredLocal p f => "use of undeclared local `" ++ p.text ++ "` in `" ++ f ++ "`"
  | missingFunction f => "reference to nonexistent function `" ++ f.text ++ "`"
  | missingBlock b => "jump to nonexistent block `" ++ b.text ++ "`"
  | switchShape cases targets =>
    "`switchInt` has " ++ toString cases ++ " value(s) but " ++ toString targets ++ " target(s)"
  | argumentCount callee given expected =>
    "call to `" ++ callee ++ "` passes " ++ toString given ++ " argument(s) but it takes " ++ toString expected

/-- A flaw and the place of the statement or terminator that has it. -/
structure Issue where
  flaw : Flaw
  pos : Pos
deriving DecidableEq

namespace Verifier

/-- One flaw unless a condition holds. -/
def require (ok : Bool) (flaw : Flaw) : List Flaw := if ok then [] else [flaw]

def place (f : Function) (p : Place) : List Flaw :=
  require (f.body.declares p) (.undeclaredLocal p f.name)

def operand (m : Module) (f : Function) : Operand → List Flaw
  | .read p => place f p
  | .const _ => []
  | .func g => require (m.functions.contains g) (.missingFunction g)

def rvalue (m : Module) (f : Function) : Rvalue → List Flaw
  | .use x | .unary _ x => operand m f x
  | .binary _ x y => operand m f x ++ operand m f y

def action (m : Module) (f : Function) : Action → List Flaw
  | .assign p r => place f p ++ rvalue m f r
  | .drop _ p => place f p

/-- A call that names its callee has to give it as many arguments as it takes. -/
def arity (m : Module) (callee : Operand) (given : Nat) : List Flaw :=
  match callee with
  | .func g =>
    match m.get? g with
    | some function =>
      let expected := function.body.args.toNat
      require (given = expected) (.argumentCount function.name given expected)
    | none => []
  | _ => []

/-- The flaws of a transfer apart from those of its targets. -/
def inputs (m : Module) (f : Function) : Transfer → List Flaw
  | .ret | .diverge | .goto _ | .panic _ => []
  | .branch c _ _ => operand m f c
  | .switch p cases targets =>
    place f p ++
      require (targets.length = cases.length || targets.length = cases.length + 1)
        (.switchShape cases.length targets.length)
  | .call p callee args _ =>
    place f p ++ operand m f callee ++ args.flatMap (operand m f) ++ arity m callee args.length

def transfer (m : Module) (f : Function) (t : Transfer) : List Flaw :=
  inputs m f t ++ t.successors.flatMap fun b => require (f.body.blocks.contains b) (.missingBlock b)

def block (m : Module) (f : Function) (b : Block) : List Issue :=
  b.statements.flatMap (fun s => (action m f s.action).map (⟨·, s.pos⟩)) ++
    (transfer m f b.terminator.transfer).map (⟨·, b.terminator.pos⟩)

def function (m : Module) (f : Function) : List Issue :=
  (require (!f.body.isEmpty) (.noBlocks f.name)).map (⟨·, Pos.none⟩) ++
    f.body.blocks.toList.flatMap (block m f)

end Verifier

namespace Module

/-- The issues of a module, in the order of its code. -/
def issues (m : Module) : List Issue := m.functions.toList.flatMap (Verifier.function m)

def verifies (m : Module) : Bool := m.issues.isEmpty

/-- What is shown of a module that does not verify: its text, and each issue on a line. -/
def verdict? (m : Module) : Option String :=
  if m.verifies then none
  else
    let line (i : Issue) :=
      toString i.pos.line.toNat ++ ":" ++ toString i.pos.col.toNat ++ ": " ++ i.flaw.message ++ "\n"
    some ("\n" ++ m.text ++ "\n" ++ String.join (m.issues.map line))

end Module

end BlockIR
