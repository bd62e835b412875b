import BlockIR.Verifier
import BlockIR.Proofs.RoundTrip.Scanning

/-!
# Modules that can be written

What a module has to keep, besides being well-formed, for its text to be read as that module: names that
are identifiers and differ, numbers of parts that keys can count, and constants that are finite.
-/

namespace BlockIR

/-- No infinite double and no NaN. -/
def Constant.Finite : Constant → Prop
  | .float x => x.isFinite
  | _ => True

instance (c : Constant) : Decidable c.Finite :=
  match c with
  | .float x => inferInstanceAs (Decidable (x.isFinite = true))
  | .int _ | .uint _ | .str _ | .bool _ => .isTrue trivial

section Constants

def Operand.constants : Operand → List Constant
  | .const c => [c]
  | .read _ | .func _ => []

def Rvalue.constants : Rvalue → List Constant
  | .use x | .unary _ x => x.constants
  | .binary _ x y => x.constants ++ y.constants

def Action.constants : Action → List Constant
  | .assign _ r => r.constants
  | .drop _ _ => []

def Transfer.constants : Transfer → List Constant
  | .ret | .diverge | .goto _ | .panic _ => []
  | .branch c _ _ => c.constants
  | .switch _ cases _ => cases
  | .call _ f xs _ => f.constants ++ xs.flatMap Operand.constants

def Block.constants (b : Block) : List Constant :=
  b.statements.flatMap (·.action.constants) ++ b.terminator.transfer.constants

def Body.constants (b : Body) : List Constant := b.blocks.toList.flatMap Block.constants

end Constants

/-- The locals that are declared can be counted in 32 bits, and each block has a key. -/
structure Body.Writable (b : Body) : Prop where
  locals : b.vars.toNat + b.temps.toNat < 2 ^ 32
  blocks : b.blocks.size ≤ 2 ^ 32
  constants : ∀ c ∈ b.constants, c.Finite

instance (b : Body) : Decidable b.Writable :=
  decidable_of_iff (b.vars.toNat + b.temps.toNat < 2 ^ 32 ∧ b.blocks.size ≤ 2 ^ 32 ∧ ∀ c ∈ b.constants, c.Finite)
    ⟨fun ⟨hlocals, hblocks, hconstants⟩ => ⟨hlocals, hblocks, hconstants⟩,
      fun ⟨hlocals, hblocks, hconstants⟩ => ⟨hlocals, hblocks, hconstants⟩⟩

structure Attribute.Writable (a : Attribute) : Prop where
  name : Token.IsIdent a.name
  keys : ∀ arg ∈ a.args, Token.IsIdent arg.1

instance (a : Attribute) : Decidable a.Writable :=
  decidable_of_iff (Token.IsIdent a.name ∧ ∀ arg ∈ a.args, Token.IsIdent arg.1)
    ⟨fun ⟨hname, hkeys⟩ => ⟨hname, hkeys⟩, fun ⟨hname, hkeys⟩ => ⟨hname, hkeys⟩⟩

structure Function.Writable (f : Function) : Prop where
  name : Token.IsIdent f.name
  attrs : ∀ a ∈ f.attrs, a.Writable
  body : f.body.Writable

instance (f : Function) : Decidable f.Writable :=
  decidable_of_iff (Token.IsIdent f.name ∧ (∀ a ∈ f.attrs, a.Writable) ∧ f.body.Writable)
    ⟨fun ⟨hname, hattrs, hbody⟩ => ⟨hname, hattrs, hbody⟩, fun ⟨hname, hattrs, hbody⟩ => ⟨hname, hattrs, hbody⟩⟩

/-- The names of the functions, in order. -/
def Module.functionNames (m : Module) : List String := m.functions.toList.map (·.name)

structure Module.Writable (m : Module) : Prop where
  verifies : m.verifies
  size : m.functions.size ≤ 2 ^ 32
  names : m.functionNames.Nodup
  functions : ∀ f ∈ m.functions.toList, f.Writable

instance (m : Module) : Decidable m.Writable :=
  decidable_of_iff (m.verifies ∧ m.functions.size ≤ 2 ^ 32 ∧ m.functionNames.Nodup ∧
      ∀ f ∈ m.functions.toList, f.Writable)
    ⟨fun ⟨hverifies, hsize, hnames, hfunctions⟩ => ⟨hverifies, hsize, hnames, hfunctions⟩,
      fun ⟨hverifies, hsize, hnames, hfunctions⟩ => ⟨hverifies, hsize, hnames, hfunctions⟩⟩

end BlockIR
