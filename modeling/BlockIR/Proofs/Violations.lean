import BlockIR.Proofs.WellFormed

/-!
# Violations

What can be wrong with a module, said of the places, the functions and the blocks that occur in its code. The
verifier reports exactly these violations, each with the position of the statement or terminator that has it.
-/

namespace BlockIR

section Vocabulary

variable {b : Body} {p : Place} {t : Transfer} {k : BlockId}

/-- The places of a body are the result, and of each kind of locals those with an index below their number. -/
lemma Body.declares_iff : b.declares p ↔
    p = .result ∨ (∃ i, p = .arg i ∧ i.toNat < b.args.toNat) ∨ (∃ i, p = .var i ∧ i.toNat < b.vars.toNat) ∨
      ∃ i, p = .temp i ∧ i.toNat < b.temps.toNat := by
  cases p <;> simp [declares, UInt32.lt_iff_toNat_lt]

lemma Body.declares_eq_false_iff : b.declares p = false ↔
    (∃ i, p = .arg i ∧ b.args.toNat ≤ i.toNat) ∨ (∃ i, p = .var i ∧ b.vars.toNat ≤ i.toNat) ∨
      ∃ i, p = .temp i ∧ b.temps.toNat ≤ i.toNat := by
  cases p <;> simp [declares, UInt32.le_iff_toNat_le]

/-- The successors are the blocks that a terminator names, those of a switch its targets. -/
lemma Transfer.mem_successors_iff : k ∈ t.successors ↔
    t = .goto k ∨ t = .panic k ∨ (∃ dest f args, t = .call dest f args k) ∨
      (∃ c other, t = .branch c k other ∨ t = .branch c other k) ∨
      ∃ subject cases targets, t = .switch subject cases targets ∧ k ∈ targets := by
  cases t <;> simp [successors, eq_comm, exists_or]

end Vocabulary

namespace Operand

/-- The function that is named, if it is one. -/
def items : Operand → List FuncId
  | read _ | const _ => []
  | func g => [g]

def places : Operand → List Place
  | read p => [p]
  | const _ | func _ => []

end Operand

namespace Rvalue

def operands : Rvalue → List Operand
  | use x | unary _ x => [x]
  | binary _ x y => [x, y]

end Rvalue

namespace Action

/-- The operands that are read. -/
def operands : Action → List Operand
  | assign _ r => r.operands
  | drop _ _ => []

/-- The place that is written or dropped. -/
def target : Action → Place
  | assign p _ | drop _ p => p

def items (a : Action) : List FuncId := a.operands.flatMap Operand.items

def places (a : Action) : List Place := a.target :: a.operands.flatMap Operand.places

end Action

namespace Transfer

def operands : Transfer → List Operand
  | branch c _ _ => [c]
  | call _ f args _ => f :: args
  | ret | goto _ | switch _ _ _ | diverge | panic _ => []

/-- The subject of a switch, or the place that takes the result of a call. -/
def target? : Transfer → Option Place
  | switch p _ _ | call p _ _ _ => some p
  | ret | goto _ | branch _ _ _ | diverge | panic _ => none

def items (t : Transfer) : List FuncId := t.operands.flatMap Operand.items

def places (t : Transfer) : List Place := t.target?.toList ++ t.operands.flatMap Operand.places

/-- A switch has a target for each value, and perhaps one more. -/
def HasTargets : Transfer → Prop
  | switch _ cases targets => targets.length = cases.length ∨ targets.length = cases.length + 1
  | _ => True

end Transfer

namespace Block

/-- The places that occur in a block. -/
def places (k : Block) : List Place :=
  k.statements.flatMap (·.action.places) ++ k.terminator.transfer.places

/-- The functions that are named in a block. -/
def items (k : Block) : List FuncId :=
  k.statements.flatMap (·.action.items) ++ k.terminator.transfer.items

end Block

namespace Issue

/-- A function has no block to begin at. This has no position. -/
def IsNoBlocks (m : Module) (i : Issue) : Prop :=
  ∃ f ∈ m.functions.toList, f.body.blocks.toList = [] ∧ i = ⟨.noBlocks f.name, .none⟩

/-- A function uses a local at this place of its code, and does not declare it. -/
def IsUndeclaredLocal (m : Module) (i : Issue) : Prop :=
  ∃ f ∈ m.functions.toList, ∃ k ∈ f.body.blocks.toList, ∃ p,
    ((∃ st ∈ k.statements, p ∈ st.action.places ∧ i.pos = st.pos) ∨
      p ∈ k.terminator.transfer.places ∧ i.pos = k.terminator.pos) ∧
    f.body.declares p = false ∧ i.flaw = .undeclaredLocal p f.name

/-- The code at this place names a function that does not exist. -/
def IsMissingFunction (m : Module) (i : Issue) : Prop :=
  ∃ f ∈ m.functions.toList, ∃ k ∈ f.body.blocks.toList, ∃ g,
    ((∃ st ∈ k.statements, g ∈ st.action.items ∧ i.pos = st.pos) ∨
      g ∈ k.terminator.transfer.items ∧ i.pos = k.terminator.pos) ∧
    m.get? g = none ∧ i.flaw = .missingFunction g

/-- The terminator at this place goes on to a block that does not exist. -/
def IsMissingBlock (m : Module) (i : Issue) : Prop :=
  ∃ f ∈ m.functions.toList, ∃ k ∈ f.body.blocks.toList, ∃ b ∈ k.terminator.transfer.successors,
    i.pos = k.terminator.pos ∧ f.body.blocks.get? b = none ∧ i.flaw = .missingBlock b

/-- The switch at this place has too few or too many targets for its cases. -/
def IsSwitchShape (m : Module) (i : Issue) : Prop :=
  ∃ f ∈ m.functions.toList, ∃ k ∈ f.body.blocks.toList, ∃ p cases targets,
    k.terminator = ⟨.switch p cases targets, i.pos⟩ ∧ targets.length ≠ cases.length ∧
    targets.length ≠ cases.length + 1 ∧ i.flaw = .switchShape cases.length targets.length

/-- A call at this place names its callee, and gives it a number of arguments that it does not take. -/
def IsArgumentCount (m : Module) (i : Issue) : Prop :=
  ∃ f ∈ m.functions.toList, ∃ k ∈ f.body.blocks.toList, ∃ dest g args target callee,
    k.terminator = ⟨.call dest (.func g) args target, i.pos⟩ ∧ m.get? g = some callee ∧
    args.length ≠ callee.body.args.toNat ∧
    i.flaw = .argumentCount callee.name args.length callee.body.args.toNat

/-- Something is wrong with the module, which is the flaw and at the position of the issue. -/
inductive IsViolation (m : Module) (i : Issue) : Prop
  | noBlocks (h : i.IsNoBlocks m)
  | undeclaredLocal (h : i.IsUndeclaredLocal m)
  | missingFunction (h : i.IsMissingFunction m)
  | missingBlock (h : i.IsMissingBlock m)
  | switchShape (h : i.IsSwitchShape m)
  | argumentCount (h : i.IsArgumentCount m)

end Issue

/-- A function of a module is as it has to be for the module to be run. -/
structure Function.Correct (m : Module) (f : Function) : Prop where
  blocks : f.body.blocks.toList ≠ []
  places : ∀ k ∈ f.body.blocks.toList, ∀ p ∈ k.places, f.body.declares p
  successors : ∀ k ∈ f.body.blocks.toList, ∀ b ∈ k.terminator.transfer.successors,
    ∃ target, f.body.blocks.get? b = some target
  items : ∀ k ∈ f.body.blocks.toList, ∀ g ∈ k.items, ∃ function, m.get? g = some function
  switches : ∀ k ∈ f.body.blocks.toList, k.terminator.transfer.HasTargets
  calls : ∀ k ∈ f.body.blocks.toList, ∀ dest g args target callee,
    k.terminator.transfer = .call dest (.func g) args target → m.get? g = some callee →
    args.length = callee.body.args.toNat

namespace Verifier

variable {m : Module} {f : Function} {e : Flaw}

/-- A flaw of code in which these places and these functions occur: one of the places is not declared, or one
of the functions does not exist. -/
def Misused (m : Module) (f : Function) (places : List Place) (items : List FuncId) (e : Flaw) : Prop :=
  (∃ p ∈ places, f.body.declares p = false ∧ e = .undeclaredLocal p f.name) ∨
    ∃ g ∈ items, m.get? g = none ∧ e = .missingFunction g

lemma misused_append_iff {ps ps' : List Place} {gs gs' : List FuncId} :
    Misused m f (ps ++ ps') (gs ++ gs') e ↔ Misused m f ps gs e ∨ Misused m f ps' gs' e := by
  simp only [Misused, List.mem_append, or_and_right, exists_or]
  exact or_or_or_comm

lemma mem_require_iff {ok : Bool} {flaw : Flaw} : e ∈ require ok flaw ↔ ok = false ∧ e = flaw := by
  cases ok with
  | true => simp only [require, if_true, List.not_mem_nil, Bool.true_eq_false, false_and]
  | false => simp only [require, Bool.false_eq_true, if_false, List.mem_singleton, true_and]

lemma mem_place_iff {p : Place} : e ∈ place f p ↔ Misused m f [p] [] e := by
  simp only [place, mem_require_iff, Misused, List.mem_singleton, exists_eq_left, List.not_mem_nil,
    false_and, exists_false, or_false]

lemma contains_eq_false_iff {g : FuncId} : m.functions.contains g = false ↔ m.get? g = none := by
  rw [← Arena.isSome_get?, Option.isSome_eq_false_iff, Option.isNone_iff_eq_none]
  rfl

lemma mem_operand_iff {x : Operand} : e ∈ operand m f x ↔ Misused m f x.places x.items e := by
  cases x with
  | read p => exact mem_place_iff
  | const c => simp [operand, Misused, Operand.places, Operand.items]
  | func g =>
    simp only [operand, mem_require_iff, contains_eq_false_iff, Misused, Operand.places, Operand.items,
      List.not_mem_nil, false_and, exists_false, false_or, List.mem_singleton, exists_eq_left]

lemma mem_operands_iff {xs : List Operand} :
    e ∈ xs.flatMap (operand m f) ↔
      Misused m f (xs.flatMap Operand.places) (xs.flatMap Operand.items) e := by
  induction xs with
  | nil => simp [Misused]
  | cons x xs ih =>
    rw [List.flatMap_cons, List.flatMap_cons, List.flatMap_cons, misused_append_iff, List.mem_append,
      mem_operand_iff, ih]

lemma rvalue_eq (m : Module) (f : Function) (r : Rvalue) :
    rvalue m f r = r.operands.flatMap (operand m f) := by
  cases r <;> simp [rvalue, Rvalue.operands]

lemma mem_action_iff {a : Action} : e ∈ action m f a ↔ Misused m f a.places a.items e := by
  have hsplit : Misused m f a.places a.items e ↔ e ∈ place f a.target ∨ e ∈ a.operands.flatMap (operand m f) := by
    rw [mem_place_iff (m := m), mem_operands_iff, ← misused_append_iff]
    rfl
  rw [hsplit]
  cases a with
  | drop k p => simp [action, Action.operands, Action.target]
  | assign p r => rw [action, List.mem_append, rvalue_eq]; rfl

lemma mem_arity_iff {x : Operand} {given : Nat} :
    e ∈ arity m x given ↔ ∃ g callee, x = .func g ∧ m.get? g = some callee ∧
      given ≠ callee.body.args.toNat ∧ e = .argumentCount callee.name given callee.body.args.toNat := by
  cases x with
  | read p => simp [arity]
  | const c => simp [arity]
  | func g =>
    cases hg : m.get? g with
    | none => simp [arity, hg]
    | some callee => simp [arity, hg, mem_require_iff]

/-- What is wrong with a transfer apart from its places, functions and targets. -/
inductive Misshapen (m : Module) (e : Flaw) : Transfer → Prop
  | switch {p : Place} {cases : List Constant} {targets : List BlockId}
    (hfew : targets.length ≠ cases.length) (hmany : targets.length ≠ cases.length + 1)
    (he : e = .switchShape cases.length targets.length) : Misshapen m e (.switch p cases targets)
  | call {dest : Place} {g : FuncId} {args : List Operand} {target : BlockId} {callee : Function}
    (hg : m.get? g = some callee) (hcount : args.length ≠ callee.body.args.toNat)
    (he : e = .argumentCount callee.name args.length callee.body.args.toNat) :
    Misshapen m e (.call dest (.func g) args target)

lemma misused_transfer_iff {t : Transfer} :
    Misused m f t.places t.items e ↔
      (∃ p ∈ t.target?, e ∈ place f p) ∨ e ∈ t.operands.flatMap (operand m f) := by
  have hitems : t.items = [] ++ t.operands.flatMap Operand.items := rfl
  rw [Transfer.places, hitems, misused_append_iff, mem_operands_iff]
  refine or_congr_left ?_
  cases t.target? with
  | none => simp [Misused]
  | some p =>
    simp only [Option.toList_some, mem_place_iff (m := m), Option.mem_def, Option.some.injEq, exists_eq_left']

lemma misshapen_switch_iff {p : Place} {cases : List Constant} {targets : List BlockId} :
    Misshapen m e (.switch p cases targets) ↔
      e ∈ require (targets.length = cases.length || targets.length = cases.length + 1)
        (.switchShape cases.length targets.length) := by
  simp only [mem_require_iff, Bool.or_eq_false_iff, decide_eq_false_iff_not, and_assoc]
  constructor
  · rintro ⟨hfew, hmany, he⟩
    exact ⟨hfew, hmany, he⟩
  · rintro ⟨hfew, hmany, he⟩
    exact .switch hfew hmany he

lemma misshapen_call_iff {dest : Place} {callee : Operand} {args : List Operand} {target : BlockId} :
    Misshapen m e (.call dest callee args target) ↔ e ∈ arity m callee args.length := by
  rw [mem_arity_iff]
  constructor
  · rintro (_ | ⟨hg, hcount, he⟩)
    exact ⟨_, _, rfl, hg, hcount, he⟩
  · rintro ⟨g, function, rfl, hg, hcount, he⟩
    exact .call hg hcount he

lemma mem_inputs_iff {t : Transfer} :
    e ∈ inputs m f t ↔ Misused m f t.places t.items e ∨ Misshapen m e t := by
  rw [misused_transfer_iff]
  have plain : ∀ {t : Transfer}, ¬Misshapen m e t → inputs m f t = t.operands.flatMap (operand m f) →
      t.target? = none →
      (e ∈ inputs m f t ↔ ((∃ p ∈ t.target?, e ∈ place f p) ∨ e ∈ t.operands.flatMap (operand m f)) ∨
        Misshapen m e t) := by
    intro t hshape hinputs htarget
    simp only [htarget, hinputs, hshape, Option.not_mem_none, false_and, exists_false, false_or, or_false]
  cases t with
  | ret => exact plain (by rintro ⟨⟩) rfl rfl
  | diverge => exact plain (by rintro ⟨⟩) rfl rfl
  | goto b => exact plain (by rintro ⟨⟩) rfl rfl
  | panic b => exact plain (by rintro ⟨⟩) rfl rfl
  | branch c onTrue onFalse => exact plain (by rintro ⟨⟩) (List.flatMap_singleton _ _).symm rfl
  | switch p cases targets =>
    simp only [inputs, List.mem_append, misshapen_switch_iff, Transfer.target?, Transfer.operands,
      Option.mem_def, Option.some.injEq, exists_eq_left', List.flatMap_nil, List.not_mem_nil, or_false]
  | call dest callee args target =>
    simp only [inputs, List.mem_append, misshapen_call_iff, Transfer.target?, Transfer.operands,
      Option.mem_def, Option.some.injEq, exists_eq_left', List.flatMap_cons, or_assoc]

lemma mem_transfer_iff {t : Transfer} :
    e ∈ transfer m f t ↔ Misused m f t.places t.items e ∨ Misshapen m e t ∨
      ∃ b ∈ t.successors, f.body.blocks.get? b = none ∧ e = .missingBlock b := by
  have hmissing : ∀ b, f.body.blocks.contains b = false ↔ f.body.blocks.get? b = none := by
    intro b
    rw [← Arena.isSome_get?, Option.isSome_eq_false_iff, Option.isNone_iff_eq_none]
  rw [transfer, List.mem_append, mem_inputs_iff, or_assoc]
  simp only [List.mem_flatMap, mem_require_iff, hmissing]

lemma mem_block_iff {k : Block} {i : Issue} :
    i ∈ block m f k ↔ (∃ st ∈ k.statements, i.pos = st.pos ∧ i.flaw ∈ action m f st.action) ∨
      i.pos = k.terminator.pos ∧ i.flaw ∈ transfer m f k.terminator.transfer := by
  have hplaced : ∀ {flaws : List Flaw} {pos : Pos},
      i ∈ flaws.map (⟨·, pos⟩) ↔ i.pos = pos ∧ i.flaw ∈ flaws := by
    intro flaws pos
    rw [List.mem_map]
    constructor
    · rintro ⟨e, he, rfl⟩
      exact ⟨rfl, he⟩
    · rintro ⟨rfl, he⟩
      exact ⟨i.flaw, he, rfl⟩
  simp only [block, List.mem_append, List.mem_flatMap, hplaced]

lemma mem_function_iff {i : Issue} :
    i ∈ function m f ↔ f.body.blocks.toList = [] ∧ i = ⟨.noBlocks f.name, .none⟩ ∨
      ∃ k ∈ f.body.blocks.toList, i ∈ block m f k := by
  have hempty : (!f.body.isEmpty) = false ↔ f.body.blocks.toList = [] := by
    rw [Body.isEmpty, Bool.not_not, Arena.contains, ← Arena.length_toList, decide_eq_false_iff_not,
      ← List.length_eq_zero_iff]
    exact Nat.not_lt.trans Nat.le_zero
  rw [function, List.mem_append, List.mem_flatMap]
  refine or_congr_left ?_
  rw [List.mem_map, ← hempty]
  constructor
  · rintro ⟨e, he, rfl⟩
    obtain ⟨hfalse, rfl⟩ := mem_require_iff.1 he
    exact ⟨hfalse, rfl⟩
  · rintro ⟨hfalse, rfl⟩
    exact ⟨_, mem_require_iff.2 ⟨hfalse, rfl⟩, rfl⟩

end Verifier

namespace Issue

variable {m : Module} {i : Issue} {f : Function} {k : Block}

lemma IsViolation.of_action (hf : f ∈ m.functions.toList) (hk : k ∈ f.body.blocks.toList) {st : Statement}
    (hst : st ∈ k.statements) (hpos : i.pos = st.pos) (h : i.flaw ∈ Verifier.action m f st.action) :
    i.IsViolation m := by
  rcases Verifier.mem_action_iff.1 h with ⟨p, hp, hdeclared, he⟩ | ⟨g, hg, hmissing, he⟩
  · exact .undeclaredLocal ⟨f, hf, k, hk, p, .inl ⟨st, hst, hp, hpos⟩, hdeclared, he⟩
  · exact .missingFunction ⟨f, hf, k, hk, g, .inl ⟨st, hst, hg, hpos⟩, hmissing, he⟩

lemma IsViolation.of_transfer (hf : f ∈ m.functions.toList) (hk : k ∈ f.body.blocks.toList)
    (hpos : i.pos = k.terminator.pos) (h : i.flaw ∈ Verifier.transfer m f k.terminator.transfer) :
    i.IsViolation m := by
  rcases Verifier.mem_transfer_iff.1 h with
    (⟨p, hp, hdeclared, he⟩ | ⟨g, hg, hmissing, he⟩) | hshape | ⟨b, hb, hmissing, he⟩
  · exact .undeclaredLocal ⟨f, hf, k, hk, p, .inr ⟨hp, hpos⟩, hdeclared, he⟩
  · exact .missingFunction ⟨f, hf, k, hk, g, .inr ⟨hg, hpos⟩, hmissing, he⟩
  · have hterminator : k.terminator = ⟨k.terminator.transfer, i.pos⟩ := by rw [hpos]
    generalize k.terminator.transfer = t at hshape hterminator
    cases hshape with
    | switch hfew hmany he => exact .switchShape ⟨f, hf, k, hk, _, _, _, hterminator, hfew, hmany, he⟩
    | call hg hcount he => exact .argumentCount ⟨f, hf, k, hk, _, _, _, _, _, hterminator, hg, hcount, he⟩
  · exact .missingBlock ⟨f, hf, k, hk, b, hb, hpos, hmissing, he⟩

lemma mem_issues_of_block (hf : f ∈ m.functions.toList) (hk : k ∈ f.body.blocks.toList)
    (h : (∃ st ∈ k.statements, i.pos = st.pos ∧ i.flaw ∈ Verifier.action m f st.action) ∨
      i.pos = k.terminator.pos ∧ i.flaw ∈ Verifier.transfer m f k.terminator.transfer) :
    i ∈ m.issues :=
  List.mem_flatMap.2 ⟨f, hf, Verifier.mem_function_iff.2 (.inr ⟨k, hk, Verifier.mem_block_iff.2 h⟩)⟩

lemma mem_issues_of_misused (hf : f ∈ m.functions.toList) (hk : k ∈ f.body.blocks.toList)
    (h : (∃ st ∈ k.statements, i.pos = st.pos ∧
        Verifier.Misused m f st.action.places st.action.items i.flaw) ∨
      i.pos = k.terminator.pos ∧
        Verifier.Misused m f k.terminator.transfer.places k.terminator.transfer.items i.flaw) :
    i ∈ m.issues := by
  refine mem_issues_of_block hf hk ?_
  rcases h with ⟨st, hst, hpos, h⟩ | ⟨hpos, h⟩
  · exact .inl ⟨st, hst, hpos, Verifier.mem_action_iff.2 h⟩
  · exact .inr ⟨hpos, Verifier.mem_transfer_iff.2 (.inl h)⟩

lemma mem_issues_of_misshapen (hf : f ∈ m.functions.toList) (hk : k ∈ f.body.blocks.toList) {t : Transfer}
    (hterminator : k.terminator = ⟨t, i.pos⟩) (h : Verifier.Misshapen m i.flaw t) : i ∈ m.issues := by
  refine mem_issues_of_block hf hk (.inr ?_)
  rw [hterminator]
  exact ⟨rfl, Verifier.mem_transfer_iff.2 (.inr (.inl h))⟩

/-- The verifier reports what is wrong with a module, and nothing else. -/
lemma mem_issues_iff : i ∈ m.issues ↔ i.IsViolation m := by
  constructor
  · intro h
    obtain ⟨f, hf, h⟩ := List.mem_flatMap.1 h
    rcases Verifier.mem_function_iff.1 h with ⟨hblocks, rfl⟩ | ⟨k, hk, h⟩
    · exact .noBlocks ⟨f, hf, hblocks, rfl⟩
    · rcases Verifier.mem_block_iff.1 h with ⟨st, hst, hpos, h⟩ | ⟨hpos, h⟩
      · exact .of_action hf hk hst hpos h
      · exact .of_transfer hf hk hpos h
  · intro h
    cases h with
    | noBlocks h =>
      obtain ⟨f, hf, hblocks, rfl⟩ := h
      exact List.mem_flatMap.2 ⟨f, hf, Verifier.mem_function_iff.2 (.inl ⟨hblocks, rfl⟩)⟩
    | undeclaredLocal h =>
      obtain ⟨f, hf, k, hk, p, huse, hdeclared, he⟩ := h
      refine mem_issues_of_misused hf hk ?_
      rcases huse with ⟨st, hst, hp, hpos⟩ | ⟨hp, hpos⟩
      · exact .inl ⟨st, hst, hpos, .inl ⟨p, hp, hdeclared, he⟩⟩
      · exact .inr ⟨hpos, .inl ⟨p, hp, hdeclared, he⟩⟩
    | missingFunction h =>
      obtain ⟨f, hf, k, hk, g, huse, hmissing, he⟩ := h
      refine mem_issues_of_misused hf hk ?_
      rcases huse with ⟨st, hst, hg, hpos⟩ | ⟨hg, hpos⟩
      · exact .inl ⟨st, hst, hpos, .inr ⟨g, hg, hmissing, he⟩⟩
      · exact .inr ⟨hpos, .inr ⟨g, hg, hmissing, he⟩⟩
    | missingBlock h =>
      obtain ⟨f, hf, k, hk, b, hb, hpos, hmissing, he⟩ := h
      refine mem_issues_of_block hf hk (.inr ⟨hpos, ?_⟩)
      exact Verifier.mem_transfer_iff.2 (.inr (.inr ⟨b, hb, hmissing, he⟩))
    | switchShape h =>
      obtain ⟨f, hf, k, hk, p, cases, targets, hterminator, hfew, hmany, he⟩ := h
      exact mem_issues_of_misshapen hf hk hterminator (.switch hfew hmany he)
    | argumentCount h =>
      obtain ⟨f, hf, k, hk, dest, g, args, target, callee, hterminator, hg, hcount, he⟩ := h
      exact mem_issues_of_misshapen hf hk hterminator (.call hg hcount he)

end Issue

section Correct

variable {m : Module} {f : Function} {k : Block}

lemma Block.mem_places_iff {p : Place} :
    p ∈ k.places ↔ (∃ st ∈ k.statements, p ∈ st.action.places) ∨ p ∈ k.terminator.transfer.places := by
  rw [places, List.mem_append, List.mem_flatMap]

lemma Block.mem_items_iff {g : FuncId} :
    g ∈ k.items ↔ (∃ st ∈ k.statements, g ∈ st.action.items) ∨ g ∈ k.terminator.transfer.items := by
  rw [items, List.mem_append, List.mem_flatMap]

lemma Function.correct_of_no_violation (h : ∀ i : Issue, ¬i.IsViolation m) (hf : f ∈ m.functions.toList) :
    f.Correct m where
  blocks hblocks := h ⟨.noBlocks f.name, .none⟩ (.noBlocks ⟨f, hf, hblocks, rfl⟩)
  places k hk p hp := by
    by_contra hdeclared
    have hfalse : f.body.declares p = false := Bool.eq_false_iff.2 hdeclared
    rcases Block.mem_places_iff.1 hp with ⟨st, hst, hp⟩ | hp
    · exact h ⟨.undeclaredLocal p f.name, st.pos⟩
        (.undeclaredLocal ⟨f, hf, k, hk, p, .inl ⟨st, hst, hp, rfl⟩, hfalse, rfl⟩)
    · exact h ⟨.undeclaredLocal p f.name, k.terminator.pos⟩
        (.undeclaredLocal ⟨f, hf, k, hk, p, .inr ⟨hp, rfl⟩, hfalse, rfl⟩)
  successors k hk b hb := by
    by_contra hmissing
    have hnone : f.body.blocks.get? b = none := Option.eq_none_iff_forall_not_mem.2 (not_exists.1 hmissing)
    exact h ⟨.missingBlock b, k.terminator.pos⟩ (.missingBlock ⟨f, hf, k, hk, b, hb, rfl, hnone, rfl⟩)
  items k hk g hg := by
    by_contra hmissing
    have hnone : m.get? g = none := Option.eq_none_iff_forall_not_mem.2 (not_exists.1 hmissing)
    rcases Block.mem_items_iff.1 hg with ⟨st, hst, hg⟩ | hg
    · exact h ⟨.missingFunction g, st.pos⟩
        (.missingFunction ⟨f, hf, k, hk, g, .inl ⟨st, hst, hg, rfl⟩, hnone, rfl⟩)
    · exact h ⟨.missingFunction g, k.terminator.pos⟩
        (.missingFunction ⟨f, hf, k, hk, g, .inr ⟨hg, rfl⟩, hnone, rfl⟩)
  switches k hk := by
    obtain ⟨statements, ⟨transfer, pos⟩⟩ := k
    cases transfer with
    | switch p cases targets =>
      by_contra hshape
      obtain ⟨hfew, hmany⟩ := not_or.1 hshape
      exact h ⟨.switchShape cases.length targets.length, pos⟩
        (.switchShape ⟨f, hf, _, hk, p, cases, targets, rfl, hfew, hmany, rfl⟩)
    | _ => trivial
  calls k hk dest g args target callee hcall hg := by
    by_contra hcount
    have hterminator : k.terminator = ⟨.call dest (.func g) args target, k.terminator.pos⟩ := by rw [← hcall]
    exact h ⟨.argumentCount callee.name args.length callee.body.args.toNat, k.terminator.pos⟩
      (.argumentCount ⟨f, hf, k, hk, dest, g, args, target, callee, hterminator, hg, hcount, rfl⟩)

lemma Issue.not_isViolation_of_correct (h : ∀ f ∈ m.functions.toList, f.Correct m) (i : Issue) :
    ¬i.IsViolation m := by
  intro hi
  cases hi with
  | noBlocks hi =>
    obtain ⟨f, hf, hblocks, -⟩ := hi
    exact (h f hf).blocks hblocks
  | undeclaredLocal hi =>
    obtain ⟨f, hf, k, hk, p, huse, hfalse, -⟩ := hi
    have hp : p ∈ k.places := Block.mem_places_iff.2
      (huse.imp (fun ⟨st, hst, hp, _⟩ => ⟨st, hst, hp⟩) And.left)
    rw [(h f hf).places k hk p hp] at hfalse
    cases hfalse
  | missingFunction hi =>
    obtain ⟨f, hf, k, hk, g, huse, hnone, -⟩ := hi
    have hg : g ∈ k.items := Block.mem_items_iff.2
      (huse.imp (fun ⟨st, hst, hg, _⟩ => ⟨st, hst, hg⟩) And.left)
    obtain ⟨function, hfunction⟩ := (h f hf).items k hk g hg
    cases hnone.symm.trans hfunction
  | missingBlock hi =>
    obtain ⟨f, hf, k, hk, b, hb, -, hnone, -⟩ := hi
    obtain ⟨target, htarget⟩ := (h f hf).successors k hk b hb
    cases hnone.symm.trans htarget
  | switchShape hi =>
    obtain ⟨f, hf, k, hk, p, cases, targets, hterminator, hfew, hmany, -⟩ := hi
    have hshape := (h f hf).switches k hk
    rw [hterminator] at hshape
    exact hshape.elim hfew hmany
  | argumentCount hi =>
    obtain ⟨f, hf, k, hk, dest, g, args, target, callee, hterminator, hg, hcount, -⟩ := hi
    exact hcount ((h f hf).calls k hk dest g args target callee (congrArg Terminator.transfer hterminator) hg)

/-- A module verifies exactly if each of its functions is correct. Every issue that is reported is a violation at
the position that it shows, and every violation is reported. -/
theorem Module.verifier_exact (m : Module) :
    (m.verifies ↔ ∀ f ∈ m.functions.toList, f.Correct m) ∧ ∀ i, i ∈ m.issues ↔ i.IsViolation m := by
  refine ⟨?_, fun i => Issue.mem_issues_iff⟩
  rw [verifies, List.isEmpty_iff, List.eq_nil_iff_forall_not_mem]
  simp only [Issue.mem_issues_iff]
  constructor
  · intro h f hf
    exact Function.correct_of_no_violation h hf
  · intro h i
    exact Issue.not_isViolation_of_correct h i

end Correct

end BlockIR
