import BlockIR.Verifier
import Mathlib.Tactic.Common

/-!
# Well-formed modules

What it is for a module to be well-formed, said without the verifier: every place is declared, every
function and every block exists, every switch has targets for its cases, and calls that name their callee
give it as many arguments as it takes. The verifier finds nothing wrong exactly with these modules.
-/

namespace BlockIR

def Operand.WellFormed (m : Module) (b : Body) : Operand → Prop
  | .read p => b.declares p
  | .const _ => True
  | .func g => m.functions.contains g

def Rvalue.WellFormed (m : Module) (b : Body) : Rvalue → Prop
  | .use x | .unary _ x => x.WellFormed m b
  | .binary _ x y => x.WellFormed m b ∧ y.WellFormed m b

def Action.WellFormed (m : Module) (b : Body) : Action → Prop
  | .assign p r => b.declares p ∧ r.WellFormed m b
  | .drop _ p => b.declares p

/-- A callee that is named takes this many arguments, if it exists. -/
def Operand.Takes (m : Module) (given : Nat) : Operand → Prop
  | .func g => ∀ function ∈ m.get? g, given = function.body.args.toNat
  | _ => True

/-- Apart from its targets, a transfer uses what exists, in the right numbers. -/
def Transfer.InputsWellFormed (m : Module) (b : Body) : Transfer → Prop
  | .ret | .diverge | .goto _ | .panic _ => True
  | .branch c _ _ => c.WellFormed m b
  | .switch p cases targets =>
    b.declares p ∧ (targets.length = cases.length ∨ targets.length = cases.length + 1)
  | .call p f args _ =>
    b.declares p ∧ f.WellFormed m b ∧ (∀ x ∈ args, x.WellFormed m b) ∧ f.Takes m args.length

structure Transfer.WellFormed (m : Module) (b : Body) (t : Transfer) : Prop where
  inputs : t.InputsWellFormed m b
  targets : ∀ target ∈ t.successors, b.blocks.contains target

structure Block.WellFormed (m : Module) (b : Body) (k : Block) : Prop where
  actions : ∀ st ∈ k.statements, st.action.WellFormed m b
  transfer : k.terminator.transfer.WellFormed m b

structure Body.WellFormed (m : Module) (b : Body) : Prop where
  entry : b.blocks.contains .entry
  blocks : ∀ k ∈ b.blocks.toList, k.WellFormed m b

def Module.WellFormed (m : Module) : Prop := ∀ f ∈ m.functions.toList, f.body.WellFormed m

namespace Verifier

variable {m : Module} {f : Function}

lemma require_eq_nil_iff {ok : Bool} {flaw : Flaw} : require ok flaw = [] ↔ ok = true := by
  cases ok <;> simp only [require, if_true, Bool.false_eq_true, if_false, reduceCtorEq]

lemma place_eq_nil_iff {p : Place} : place f p = [] ↔ f.body.declares p := require_eq_nil_iff

lemma operand_eq_nil_iff {x : Operand} : operand m f x = [] ↔ x.WellFormed m f.body := by
  cases x with
  | read p => exact place_eq_nil_iff
  | const c => exact iff_of_true rfl trivial
  | func g => exact require_eq_nil_iff

lemma rvalue_eq_nil_iff {r : Rvalue} : rvalue m f r = [] ↔ r.WellFormed m f.body := by
  cases r with
  | use x => exact operand_eq_nil_iff
  | unary op x => exact operand_eq_nil_iff
  | binary op x y =>
    simp only [rvalue, List.append_eq_nil_iff, operand_eq_nil_iff, Rvalue.WellFormed]

lemma action_eq_nil_iff {a : Action} : action m f a = [] ↔ a.WellFormed m f.body := by
  cases a with
  | assign p r =>
    simp only [action, List.append_eq_nil_iff, place_eq_nil_iff, rvalue_eq_nil_iff, Action.WellFormed]
  | drop k p => exact place_eq_nil_iff

lemma arity_eq_nil_iff {x : Operand} {given : Nat} : arity m x given = [] ↔ x.Takes m given := by
  cases x with
  | read p => exact iff_of_true rfl trivial
  | const c => exact iff_of_true rfl trivial
  | func g =>
    unfold arity Operand.Takes
    cases hg : m.get? g with
    | none => simp only [hg, Option.not_mem_none, false_implies, implies_true]
    | some function =>
      simp only [hg, require_eq_nil_iff, decide_eq_true_eq, Option.mem_def, Option.some.injEq,
        forall_eq']

lemma inputs_eq_nil_iff {t : Transfer} : inputs m f t = [] ↔ t.InputsWellFormed m f.body := by
  cases t with
  | ret => exact iff_of_true rfl trivial
  | diverge => exact iff_of_true rfl trivial
  | goto target => exact iff_of_true rfl trivial
  | panic target => exact iff_of_true rfl trivial
  | branch c t e => exact operand_eq_nil_iff
  | switch p cases targets =>
    simp only [inputs, List.append_eq_nil_iff, place_eq_nil_iff, require_eq_nil_iff, Bool.or_eq_true,
      decide_eq_true_eq, Transfer.InputsWellFormed]
  | call p g args target =>
    simp only [inputs, List.append_eq_nil_iff, place_eq_nil_iff, operand_eq_nil_iff,
      List.flatMap_eq_nil_iff, arity_eq_nil_iff, Transfer.InputsWellFormed, and_assoc]

lemma transfer_eq_nil_iff {t : Transfer} : transfer m f t = [] ↔ t.WellFormed m f.body := by
  simp only [transfer, List.append_eq_nil_iff, inputs_eq_nil_iff, List.flatMap_eq_nil_iff,
    require_eq_nil_iff]
  exact ⟨fun h => ⟨h.1, h.2⟩, fun h => ⟨h.1, h.2⟩⟩

lemma block_eq_nil_iff {k : Block} : block m f k = [] ↔ k.WellFormed m f.body := by
  simp only [block, List.append_eq_nil_iff, List.flatMap_eq_nil_iff, List.map_eq_nil_iff,
    action_eq_nil_iff, transfer_eq_nil_iff]
  exact ⟨fun h => ⟨h.1, h.2⟩, fun h => ⟨h.1, h.2⟩⟩

lemma function_eq_nil_iff : function m f = [] ↔ f.body.WellFormed m := by
  simp only [function, List.append_eq_nil_iff, List.map_eq_nil_iff, require_eq_nil_iff,
    List.flatMap_eq_nil_iff, block_eq_nil_iff, Body.isEmpty, Bool.not_not]
  exact ⟨fun h => ⟨h.1, h.2⟩, fun h => ⟨h.1, h.2⟩⟩

end Verifier

namespace Module

theorem verifies_iff_wellFormed {m : Module} : m.verifies ↔ m.WellFormed := by
  simp only [verifies, List.isEmpty_iff, issues, List.flatMap_eq_nil_iff, Verifier.function_eq_nil_iff,
    WellFormed]

lemma WellFormed.body {m : Module} (h : m.WellFormed) {f : FuncId} {function : Function}
    (hf : m.get? f = some function) : function.body.WellFormed m := by
  rw [get?, Arena.get?_eq_getElem?_toList] at hf
  exact h function (List.mem_of_getElem? hf)

lemma contains_iff_get? {m : Module} {f : FuncId} :
    m.functions.contains f ↔ ∃ function, m.get? f = some function := by
  rw [← Arena.isSome_get?, Option.isSome_iff_exists]
  rfl

end Module

lemma Body.WellFormed.block {m : Module} {b : Body} (h : b.WellFormed m) {id : BlockId} {k : Block}
    (hk : b.blocks.get? id = some k) : k.WellFormed m b := by
  rw [Arena.get?_eq_getElem?_toList] at hk
  exact h.blocks k (List.mem_of_getElem? hk)

end BlockIR
