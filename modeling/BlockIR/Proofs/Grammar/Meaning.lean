import BlockIR.Proofs.Grammar.Tree
import BlockIR.Proofs.Literals

/-!
# What a derivation means

A derivation is valid if it keeps the conditions that a grammar cannot express: parameters and locals are
numbered in order, labels and functions have different names, every name that is used is defined, and
every literal is valid. A valid derivation denotes a module.
-/

namespace BlockIR

namespace Scope

/-- The key of a function: its position among the functions. -/
def function (s : Scope) (name : String) : FuncId := Key.ofNat (s.functions.idxOf name)

/-- The key of a block: its position among the labels. -/
def block (s : Scope) (label : String) : BlockId := Key.ofNat (s.labels.idxOf label)

end Scope

namespace Tree

namespace Constant

/-- A number is in range, a float has a complete exponent, and a string no unknown escape. -/
def Valid : Constant → Prop
  | int s => Literal.IsInt s.toList
  | uint s => Literal.IsUint s.toList
  | float s => Literal.IsFloat s.toList
  | str s => Quoted.IsText s.toList
  | bool _ => True

/-- A number is the word of what its digits spell, a float the nearest double, and a string is without its
escapes. -/
def denote : Constant → BlockIR.Constant
  | int s => .int (.ofInt (Literal.integerOf s.toList))
  | uint s => .uint (.ofNat (Literal.numberOf s.toList.dropLast))
  | float s => .float (Literal.doubleOf s.toList)
  | str s => .str (.ofList (Quoted.plain s.toList))
  | bool b => .bool b

end Constant

def Operand.Valid (s : Scope) : Operand → Prop
  | read _ => True
  | const c => c.Valid
  | item name => name ∈ s.functions

def Operand.denote (s : Scope) : Operand → BlockIR.Operand
  | read p => .read p
  | const c => .const c.denote
  | item name => .func (s.function name)

def Callee.Valid (s : Scope) : Callee → Prop
  | bare name => name ∈ s.functions
  | operand x => x.Valid s

def Callee.denote (s : Scope) : Callee → BlockIR.Operand
  | bare name => .func (s.function name)
  | operand x => x.denote s

def Rvalue.Valid (s : Scope) : Rvalue → Prop
  | use x | unary _ x => x.Valid s
  | binary _ x y => x.Valid s ∧ y.Valid s

def Rvalue.denote (s : Scope) : Rvalue → BlockIR.Rvalue
  | use x => .use (x.denote s)
  | binary op x y => .binary op (x.denote s) (y.denote s)
  | unary op x => .unary op (x.denote s)

def Action.Valid (s : Scope) : Action → Prop
  | assign _ r => r.Valid s
  | drop _ _ => True

def Action.denote (s : Scope) : Action → BlockIR.Action
  | assign p r => .assign p (r.denote s)
  | drop k p => .drop k p

def Case.Valid (s : Scope) (c : Case) : Prop := c.value.Valid ∧ c.target ∈ s.labels

def Case.denote (s : Scope) (c : Case) : BlockIR.Constant × BlockId := (c.value.denote, s.block c.target)

namespace Ending

def Valid (s : Scope) : Ending → Prop
  | nothing => True
  | last c => c.Valid s
  | otherwise l => l ∈ s.labels

/-- The case that no comma follows. -/
def case? : Ending → Option Case
  | last c => some c
  | _ => none

def otherwise? : Ending → Option String
  | otherwise l => some l
  | _ => none

end Ending

def Transfer.Valid (s : Scope) : Transfer → Prop
  | ret | diverge => True
  | goto l | panic l => l ∈ s.labels
  | branch c t e => c.Valid s ∧ t ∈ s.labels ∧ e ∈ s.labels
  | switch _ cases ending => (∀ c ∈ cases, c.Valid s) ∧ ending.Valid s
  | call _ f xs l => f.Valid s ∧ (∀ x ∈ xs, x.Valid s) ∧ l ∈ s.labels

def Transfer.denote (s : Scope) : Transfer → BlockIR.Transfer
  | ret => .ret
  | goto l => .goto (s.block l)
  | branch c t e => .branch (c.denote s) (s.block t) (s.block e)
  | switch p cases ending =>
    .switch p ((cases ++ ending.case?.toList).map fun c => c.value.denote)
      ((cases ++ ending.case?.toList).map (fun c => s.block c.target) ++ (ending.otherwise?.map s.block).toList)
  | call p f xs l => .call p (f.denote s) (xs.map (·.denote s)) (s.block l)
  | diverge => .diverge
  | panic l => .panic (s.block l)

def Statement.Valid (s : Scope) (t : Statement) : Prop := t.action.Valid s

def Statement.denote (s : Scope) (t : Statement) : BlockIR.Statement := ⟨t.action.denote s, t.pos⟩

def Terminator.Valid (s : Scope) (t : Terminator) : Prop := t.transfer.Valid s

def Terminator.denote (s : Scope) (t : Terminator) : BlockIR.Terminator := ⟨t.transfer.denote s, t.pos⟩

def Block.Valid (s : Scope) (b : Block) : Prop :=
  (∀ t ∈ b.statements, t.Valid s) ∧ b.terminator.Valid s

def Block.denote (s : Scope) (b : Block) : BlockIR.Block :=
  ⟨b.statements.map (·.denote s), b.terminator.denote s⟩

def AttrArg.Valid (a : AttrArg) : Prop := Quoted.IsText a.spelling.toList

def AttrArg.denote (a : AttrArg) : String × String := (a.key, .ofList (Quoted.plain a.spelling.toList))

def Attr.Valid (a : Attr) : Prop := ∀ arg ∈ a.args, arg.Valid

def Attr.denote (a : Attr) : Attribute := ⟨a.name, a.args.map (·.denote)⟩

/-- Indices that are 0, 1, 2 and so on. -/
def InOrder (is : List UInt32) : Prop := is.map UInt32.toNat = List.range is.length

namespace Decl

def var? : Decl → Option UInt32
  | var i => some i
  | temp _ => none

def temp? : Decl → Option UInt32
  | var _ => none
  | temp i => some i

end Decl

namespace Function

def labels (f : Function) : List String := f.blocks.map (·.label)

def vars (f : Function) : List UInt32 := f.decls.filterMap Decl.var?

def temps (f : Function) : List UInt32 := f.decls.filterMap Decl.temp?

/-- A function among functions of these names. -/
structure Valid (functions : List String) (f : Function) : Prop where
  attrs : ∀ a ∈ f.attrs, a.Valid
  params : InOrder f.params
  vars : InOrder f.vars
  temps : InOrder f.temps
  labels : f.labels.Nodup
  blocks : ∀ b ∈ f.blocks, b.Valid ⟨functions, f.labels⟩

def body (functions : List String) (f : Function) : Body :=
  ⟨.ofNat f.params.length, .ofNat f.vars.length, .ofNat f.temps.length,
    .ofList (f.blocks.map (·.denote ⟨functions, f.labels⟩))⟩

def denote (functions : List String) (f : Function) : BlockIR.Function :=
  ⟨f.name, f.attrs.map (·.denote), f.body functions⟩

end Function

def names (t : Tree) : List String := t.map (·.name)

structure Valid (t : Tree) : Prop where
  names : t.names.Nodup
  functions : ∀ f ∈ t, f.Valid t.names

/-- The module has the functions in the order of the text; the key of each is its position. -/
def denote (t : Tree) (name : String) : Module where
  name := name
  functions := .ofList (t.map (·.denote t.names))
  names := .ofList (t.names.zipIdx.map fun (f, i) => (f, Key.ofNat i))

end Tree

end BlockIR
