import BlockIR.Proofs.Grammar.Modules
import BlockIR.Proofs.RoundTrip.Floats
import BlockIR.Proofs.RoundTrip.Writable
import BlockIR.Proofs.WellFormed

/-!
# The derivation of a module

A module is turned into the derivation of its text, piece by piece. The derivation of a module that can be
written is valid, and it denotes the functions of the module.
-/

namespace BlockIR

section Trees

def Constant.tree : Constant → Tree.Constant
  | .int n => .int (toString n.toInt)
  | .uint n => .uint (toString n.toNat ++ "u")
  | .float x => .float x.toText
  | .str s => .str (String.ofList (Quoted.encode s.toList))
  | .bool b => .bool b

variable (m : Module)

def Operand.tree : Operand → Tree.Operand
  | .read p => .read p
  | .const c => .const c.tree
  | .func f => .item (m.funcName f)

def Operand.calleeTree : Operand → Tree.Callee
  | .func f => .bare (m.funcName f)
  | x => .operand (x.tree m)

def Rvalue.tree : Rvalue → Tree.Rvalue
  | .use x => .use (x.tree m)
  | .binary op x y => .binary op (x.tree m) (y.tree m)
  | .unary op x => .unary op (x.tree m)

def Action.tree : Action → Tree.Action
  | .assign p r => .assign p (r.tree m)
  | .drop k p => .drop k p

def caseTrees (cases : List Constant) (targets : List BlockId) : List Tree.Case :=
  (cases.zip targets).map fun (c, b) => ⟨c.tree, b.text⟩

/-- A comma follows every case but the last, and that one too if the other values have a target. -/
def switchTree (p : Place) (cases : List Tree.Case) : Option String → Tree.Transfer
  | some l => .switch p cases (.otherwise l)
  | none =>
    match cases.getLast? with
    | some c => .switch p cases.dropLast (.last c)
    | none => .switch p [] .nothing

def Transfer.tree : Transfer → Tree.Transfer
  | .ret => .ret
  | .goto b => .goto b.text
  | .branch c t e => .branch (c.tree m) t.text e.text
  | .switch p cases targets => switchTree p (caseTrees cases targets) (targets[cases.length]?.map BlockId.text)
  | .call p f xs b => .call p (f.calleeTree m) (xs.map (Operand.tree m)) b.text
  | .diverge => .diverge
  | .panic b => .panic b.text

def Statement.tree (s : Statement) : Tree.Statement := ⟨s.action.tree m, s.pos⟩

def Terminator.tree (t : Terminator) : Tree.Terminator := ⟨t.transfer.tree m, t.pos⟩

def Block.tree (name : BlockId) (b : Block) : Tree.Block :=
  ⟨name.text, b.statements.map (Statement.tree m), b.terminator.tree m⟩

def Attribute.tree (a : Attribute) : Tree.Attr :=
  ⟨a.name, a.args.map fun (key, value) => ⟨key, String.ofList (Quoted.encode value.toList)⟩⟩

/-- The indices of a number of locals. -/
def indices (n : UInt32) : List UInt32 := (List.range n.toNat).map UInt32.ofNat

def Function.tree (f : Function) (h : f.body.blocks.entries ≠ []) : Tree.Function where
  attrs := f.attrs.map Attribute.tree
  name := f.name
  params := indices f.body.args
  decls := (indices f.body.vars).map .var ++ (indices f.body.temps).map .temp
  blocks := f.body.blocks.entries.map fun (name, b) => b.tree m name
  blocks_ne_nil := by simpa using h

def Module.tree (h : ∀ f ∈ m.functions.toList, f.body.blocks.entries ≠ []) : Tree :=
  m.functions.toList.pmap (Function.tree m) h

end Trees

/-- A scope in which the functions of a module and the blocks of a body go by their names. -/
structure Scope.Names (s : Scope) (m : Module) (b : Body) : Prop where
  functions : ∀ g, m.functions.contains g → m.funcName g ∈ s.functions ∧ s.function (m.funcName g) = g
  blocks : ∀ k, b.blocks.contains k → k.text ∈ s.labels ∧ s.block k.text = k

lemma map_map_eq_self {α β : Type} {f : α → β} {g : β → α} {xs : List α} (h : ∀ x ∈ xs, g (f x) = x) :
    (xs.map f).map g = xs := by
  rw [List.map_map]
  exact (List.map_congr_left h).trans (List.map_id xs)

section Meaning

variable {m : Module} {b : Body} {s : Scope}

lemma Constant.ofToken?_tree {c : Constant} (h : c.Finite) : ofToken? c.tree.token = some (some c) := by
  cases c with
  | int n =>
    show some ((Literal.int? (toString n.toInt).toList).map Constant.int) = _
    rw [Literal.int?_toString, Option.map_some]
  | uint n =>
    show some ((Literal.uint? (toString n.toNat ++ "u").toList).map Constant.uint) = _
    rw [Literal.uint?_toString, Option.map_some]
  | float x =>
    show some ((Literal.float? x.toText.toList).map Constant.float) = _
    rw [Binary64.float?_toText h, Option.map_some]
  | str t =>
    show some ((Literal.str? (String.ofList (Quoted.encode t.toList)).toList).map Constant.str) = _
    rw [String.toList_ofList, Literal.str?_encode, Option.map_some]
  | bool v => rfl

lemma Constant.valid_tree {c : Constant} (h : c.Finite) : c.tree.Valid :=
  (Tree.Constant.ofToken?_token_eq_some_iff.1 (ofToken?_tree h)).1

lemma Constant.denote_tree {c : Constant} (h : c.Finite) : c.tree.denote = c :=
  (Tree.Constant.ofToken?_token_eq_some_iff.1 (ofToken?_tree h)).2

lemma Operand.valid_tree {x : Operand} (hs : s.Names m b) (hx : x.WellFormed m b)
    (hc : ∀ c ∈ x.constants, c.Finite) : (x.tree m).Valid s := by
  cases x with
  | read p => trivial
  | const c => exact Constant.valid_tree (hc c List.mem_cons_self)
  | func g => exact (hs.functions g hx).1

lemma Operand.denote_tree {x : Operand} (hs : s.Names m b) (hx : x.WellFormed m b)
    (hc : ∀ c ∈ x.constants, c.Finite) : (x.tree m).denote s = x := by
  cases x with
  | read p => rfl
  | const c => exact congrArg Operand.const (Constant.denote_tree (hc c List.mem_cons_self))
  | func g => exact congrArg Operand.func (hs.functions g hx).2

lemma Operand.valid_calleeTree {x : Operand} (hs : s.Names m b) (hx : x.WellFormed m b)
    (hc : ∀ c ∈ x.constants, c.Finite) : (x.calleeTree m).Valid s := by
  have htree := Operand.valid_tree hs hx hc
  cases x <;> exact htree

lemma Operand.denote_calleeTree {x : Operand} (hs : s.Names m b) (hx : x.WellFormed m b)
    (hc : ∀ c ∈ x.constants, c.Finite) : (x.calleeTree m).denote s = x := by
  have htree := Operand.denote_tree hs hx hc
  cases x <;> exact htree

lemma Rvalue.valid_tree {r : Rvalue} (hs : s.Names m b) (hr : r.WellFormed m b)
    (hc : ∀ c ∈ r.constants, c.Finite) : (r.tree m).Valid s := by
  cases r with
  | use x => exact Operand.valid_tree hs hr hc
  | unary op x => exact Operand.valid_tree hs hr hc
  | binary op x y =>
    rw [Rvalue.constants, List.forall_mem_append] at hc
    exact ⟨Operand.valid_tree hs hr.1 hc.1, Operand.valid_tree hs hr.2 hc.2⟩

lemma Rvalue.denote_tree {r : Rvalue} (hs : s.Names m b) (hr : r.WellFormed m b)
    (hc : ∀ c ∈ r.constants, c.Finite) : (r.tree m).denote s = r := by
  cases r with
  | use x => exact congrArg Rvalue.use (Operand.denote_tree hs hr hc)
  | unary op x => exact congrArg (Rvalue.unary op) (Operand.denote_tree hs hr hc)
  | binary op x y =>
    rw [Rvalue.constants, List.forall_mem_append] at hc
    exact congrArg₂ (Rvalue.binary op) (Operand.denote_tree hs hr.1 hc.1) (Operand.denote_tree hs hr.2 hc.2)

lemma Action.valid_tree {a : Action} (hs : s.Names m b) (ha : a.WellFormed m b)
    (hc : ∀ c ∈ a.constants, c.Finite) : (a.tree m).Valid s := by
  cases a with
  | assign p r => exact Rvalue.valid_tree hs ha.2 hc
  | drop k p => trivial

lemma Action.denote_tree {a : Action} (hs : s.Names m b) (ha : a.WellFormed m b)
    (hc : ∀ c ∈ a.constants, c.Finite) : (a.tree m).denote s = a := by
  cases a with
  | assign p r => exact congrArg (Action.assign p) (Rvalue.denote_tree hs ha.2 hc)
  | drop k p => rfl

section Switches

lemma valid_caseTrees {cases : List Constant} {targets : List BlockId} (hs : s.Names m b)
    (hc : ∀ c ∈ cases, c.Finite) (ht : ∀ t ∈ targets, b.blocks.contains t) :
    ∀ c ∈ caseTrees cases targets, c.Valid s := by
  intro case hcase
  obtain ⟨⟨c, t⟩, hmem, rfl⟩ := List.mem_map.1 hcase
  obtain ⟨hcmem, htmem⟩ := List.of_mem_zip hmem
  exact ⟨Constant.valid_tree (hc c hcmem), (hs.blocks t (ht t htmem)).1⟩

lemma denote_caseTrees {cases : List Constant} {targets : List BlockId} (hs : s.Names m b)
    (hc : ∀ c ∈ cases, c.Finite) (ht : ∀ t ∈ targets, b.blocks.contains t) :
    (caseTrees cases targets).map (·.denote s) = cases.zip targets := by
  rw [caseTrees]
  refine map_map_eq_self ?_
  rintro ⟨c, t⟩ hmem
  obtain ⟨hcmem, htmem⟩ := List.of_mem_zip hmem
  exact Prod.ext (Constant.denote_tree (hc c hcmem)) (hs.blocks t (ht t htmem)).2

variable {p : Place} {cs : List Tree.Case} {l : Option String}

lemma valid_switchTree (hcs : ∀ c ∈ cs, c.Valid s) (hl : ∀ l' ∈ l, l' ∈ s.labels) :
    (switchTree p cs l).Valid s := by
  unfold switchTree
  cases l with
  | some l => exact ⟨hcs, hl l rfl⟩
  | none =>
    cases hlast : cs.getLast? with
    | none => exact ⟨List.forall_mem_nil _, trivial⟩
    | some c =>
      obtain ⟨before, rfl⟩ := List.getLast?_eq_some_iff.1 hlast
      rw [List.forall_mem_append, List.forall_mem_singleton] at hcs
      dsimp only
      rw [List.dropLast_concat]
      exact hcs

lemma denote_switchTree : (switchTree p cs l).denote s =
    .switch p (cs.map fun c => c.value.denote) (cs.map (fun c => s.block c.target) ++ (l.map s.block).toList) := by
  unfold switchTree
  cases l with
  | some l =>
    rw [Tree.Transfer.denote]
    simp only [Tree.Ending.case?, Option.toList_none, List.append_nil]
    rfl
  | none =>
    cases hlast : cs.getLast? with
    | none =>
      rw [List.getLast?_eq_none_iff.1 hlast]
      rfl
    | some c =>
      obtain ⟨before, rfl⟩ := List.getLast?_eq_some_iff.1 hlast
      dsimp only
      rw [List.dropLast_concat]
      rfl

lemma map_snd_zip_append {cases : List Constant} {targets : List BlockId}
    (h : targets.length = cases.length ∨ targets.length = cases.length + 1) :
    (cases.zip targets).map (·.2) ++ targets[cases.length]?.toList = targets := by
  induction cases generalizing targets with
  | nil =>
    match targets, h with
    | [], _ => rfl
    | [t], _ => rfl
    | _ :: _ :: _, h => simp at h
  | cons c cases ih =>
    cases targets with
    | nil => simp at h
    | cons t targets =>
      rw [List.length_cons, List.length_cons] at h
      have hlength : targets.length = cases.length ∨ targets.length = cases.length + 1 := by omega
      have htail := ih hlength
      rw [List.zip_cons_cons, List.map_cons, List.length_cons, List.getElem?_cons_succ, List.cons_append, htail]

lemma denote_switch {cases : List Constant} {targets : List BlockId} (hs : s.Names m b)
    (hc : ∀ c ∈ cases, c.Finite) (ht : ∀ t ∈ targets, b.blocks.contains t)
    (h : targets.length = cases.length ∨ targets.length = cases.length + 1) :
    ((Transfer.switch p cases targets).tree m).denote s = .switch p cases targets := by
  have hother : (targets[cases.length]?.map BlockId.text).map s.block = targets[cases.length]? := by
    cases hget : targets[cases.length]? with
    | none => rfl
    | some t => exact congrArg some (hs.blocks t (ht t (List.mem_of_getElem? hget))).2
  have hcases : (cases.zip targets).map (·.1) = cases := List.map_fst_zip (by omega)
  have htrees := denote_caseTrees hs hc ht
  have hvalues : (caseTrees cases targets).map (fun c => c.value.denote) = cases := by
    have hfst := congrArg (List.map (·.1)) htrees
    rwa [hcases, List.map_map] at hfst
  have hblocks : (caseTrees cases targets).map (fun c => s.block c.target) = (cases.zip targets).map (·.2) := by
    have hsnd := congrArg (List.map (·.2)) htrees
    rwa [List.map_map] at hsnd
  show (switchTree p (caseTrees cases targets) _).denote s = _
  rw [denote_switchTree, hvalues, hblocks, hother, map_snd_zip_append h]

end Switches

lemma Transfer.valid_tree {t : Transfer} (hs : s.Names m b) (ht : t.WellFormed m b)
    (hc : ∀ c ∈ t.constants, c.Finite) : (t.tree m).Valid s := by
  obtain ⟨hinputs, htargets⟩ := ht
  cases t with
  | ret => trivial
  | diverge => trivial
  | goto k => exact (hs.blocks k (htargets k List.mem_cons_self)).1
  | panic k => exact (hs.blocks k (htargets k List.mem_cons_self)).1
  | branch x k k' =>
    have hk := (hs.blocks k (htargets k List.mem_cons_self)).1
    have hk' := (hs.blocks k' (htargets k' (List.mem_cons_of_mem _ List.mem_cons_self))).1
    exact ⟨Operand.valid_tree hs hinputs hc, hk, hk'⟩
  | switch p cases targets =>
    refine valid_switchTree (valid_caseTrees hs hc htargets) ?_
    intro l hl
    obtain ⟨k, hk, rfl⟩ := Option.map_eq_some_iff.1 hl
    exact (hs.blocks k (htargets k (List.mem_of_getElem? hk))).1
  | call p f xs k =>
    obtain ⟨-, hf, hxs, -⟩ := hinputs
    rw [constants, List.forall_mem_append] at hc
    refine ⟨Operand.valid_calleeTree hs hf hc.1, ?_, (hs.blocks k (htargets k List.mem_cons_self)).1⟩
    intro x' hx'
    obtain ⟨x, hx, rfl⟩ := List.mem_map.1 hx'
    exact Operand.valid_tree hs (hxs x hx) fun c hcx => hc.2 c (List.mem_flatMap.2 ⟨x, hx, hcx⟩)

lemma Transfer.denote_tree {t : Transfer} (hs : s.Names m b) (ht : t.WellFormed m b)
    (hc : ∀ c ∈ t.constants, c.Finite) : (t.tree m).denote s = t := by
  obtain ⟨hinputs, htargets⟩ := ht
  cases t with
  | ret => rfl
  | diverge => rfl
  | goto k => exact congrArg Transfer.goto (hs.blocks k (htargets k List.mem_cons_self)).2
  | panic k => exact congrArg Transfer.panic (hs.blocks k (htargets k List.mem_cons_self)).2
  | branch x k k' =>
    have hx := Operand.denote_tree hs hinputs hc
    have hk := (hs.blocks k (htargets k List.mem_cons_self)).2
    have hk' := (hs.blocks k' (htargets k' (List.mem_cons_of_mem _ List.mem_cons_self))).2
    rw [Transfer.tree, Tree.Transfer.denote, hx, hk, hk']
  | switch p cases targets => exact denote_switch hs hc htargets hinputs.2
  | call p f xs k =>
    obtain ⟨-, hf, hxs, -⟩ := hinputs
    rw [constants, List.forall_mem_append] at hc
    have hargs : (xs.map (Operand.tree m)).map (·.denote s) = xs := by
      refine map_map_eq_self fun x hx => ?_
      exact Operand.denote_tree hs (hxs x hx) fun c hcx => hc.2 c (List.mem_flatMap.2 ⟨x, hx, hcx⟩)
    rw [Transfer.tree, Tree.Transfer.denote, Operand.denote_calleeTree hs hf hc.1, hargs,
      (hs.blocks k (htargets k List.mem_cons_self)).2]

lemma Block.valid_tree {k : Block} (name : BlockId) (hs : s.Names m b) (hk : k.WellFormed m b)
    (hc : ∀ c ∈ k.constants, c.Finite) : (k.tree m name).Valid s := by
  rw [constants, List.forall_mem_append] at hc
  refine ⟨?_, Transfer.valid_tree hs hk.transfer hc.2⟩
  intro st' hst'
  obtain ⟨st, hst, rfl⟩ := List.mem_map.1 hst'
  exact Action.valid_tree hs (hk.actions st hst) fun c hcst => hc.1 c (List.mem_flatMap.2 ⟨st, hst, hcst⟩)

lemma Block.denote_tree {k : Block} (name : BlockId) (hs : s.Names m b) (hk : k.WellFormed m b)
    (hc : ∀ c ∈ k.constants, c.Finite) : (k.tree m name).denote s = k := by
  rw [constants, List.forall_mem_append] at hc
  have hstatements : (k.statements.map (Statement.tree m)).map (·.denote s) = k.statements := by
    refine map_map_eq_self fun st hst => ?_
    have haction := Action.denote_tree hs (hk.actions st hst) fun c hcst =>
      hc.1 c (List.mem_flatMap.2 ⟨st, hst, hcst⟩)
    exact congrArg (Statement.mk · st.pos) haction
  have hterminator : (k.terminator.tree m).denote s = k.terminator :=
    congrArg (Terminator.mk · k.terminator.pos) (Transfer.denote_tree hs hk.transfer hc.2)
  exact congrArg₂ Block.mk hstatements hterminator

end Meaning

section Names

variable {κ : Type} [Key κ]

lemma ofNat_idxOf_eq {names : List String} {name : String} (hnodup : names.Nodup) (k : κ)
    (h : names[Key.toNat k]? = some name) : (Key.ofNat (names.idxOf name) : κ) = k := by
  obtain ⟨hlt, rfl⟩ := List.getElem?_eq_some_iff.1 h
  rw [hnodup.idxOf_getElem, Key.ofNat_toNat]

lemma toNat_ofNat_of_le {n i : Nat} (hn : n ≤ 2 ^ 32) (hi : i < n) : Key.toNat (Key.ofNat i : κ) = i :=
  Key.toNat_ofNat (by rw [UInt32.size]; omega)

lemma text_injective {k k' : BlockId} (h : k.text = k'.text) : k = k' := by
  have hdigits : Nat.toDigits 10 k.index.toNat = Nat.toDigits 10 k'.index.toNat := by
    have hlists := congrArg String.toList h
    rw [BlockId.text, BlockId.text, String.toList_append, String.toList_append, Nat.toString_eq_repr,
      Nat.toString_eq_repr, Nat.toList_repr, Nat.toList_repr] at hlists
    exact List.append_cancel_left hlists
  refine Key.toNat_injective ?_
  rw [Key.toNat, Key.toNat, ← Nat.ofDigitChars_ten_toDigits (n := (Key.index k).toNat),
    ← Nat.ofDigitChars_ten_toDigits (n := (Key.index k').toNat)]
  exact congrArg (Nat.ofDigitChars 10 · 0) hdigits

/-- The labels of the blocks of a body, in order. -/
def Body.labels (b : Body) : List String := b.blocks.entries.map (·.1.text)

variable {b : Body}

lemma Body.labels_getElem? (k : BlockId) (h : b.blocks.contains k) : b.labels[Key.toNat k]? = some k.text := by
  have hlt : Key.toNat k < b.blocks.toList.length := by
    rw [Arena.length_toList]
    exact of_decide_eq_true h
  rw [labels, Arena.entries, List.map_map, List.getElem?_map, List.getElem?_zipIdx,
    List.getElem?_eq_getElem hlt, Option.map_some, Option.map_some, Nat.zero_add]
  exact congrArg (fun k => some (BlockId.text k)) (Key.ofNat_toNat k)

lemma Body.labels_nodup (h : b.blocks.size ≤ 2 ^ 32) : b.labels.Nodup := by
  refine List.pairwise_iff_getElem.2 fun i j hi hj hij heq => ?_
  rw [labels, Arena.entries, List.map_map, List.length_map, List.length_zipIdx, Arena.length_toList] at hi hj
  have hget : ∀ n, n < b.blocks.size → ∀ hn : n < b.labels.length,
      b.labels[n] = (Key.ofNat n : BlockId).text := by
    intro n hn hn'
    have hcontains : b.blocks.contains (Key.ofNat n) := by
      rw [Arena.contains, toNat_ofNat_of_le h hn]
      exact decide_eq_true hn
    have hsome := labels_getElem? _ hcontains
    rw [toNat_ofNat_of_le h hn, List.getElem?_eq_getElem hn'] at hsome
    exact Option.some.inj hsome
  rw [hget i hi, hget j hj] at heq
  have hindex := congrArg Key.toNat (text_injective heq)
  rw [toNat_ofNat_of_le h hi, toNat_ofNat_of_le h hj] at hindex
  omega

end Names

section Functions

variable {m : Module} {f : Function} {h : f.body.blocks.entries ≠ []}

lemma Module.Writable.names_scope (hm : m.Writable) (hf : f ∈ m.functions.toList) :
    Scope.Names ⟨m.functionNames, f.body.labels⟩ m f.body := by
  have hblocks := (hm.functions f hf).body.blocks
  refine ⟨fun g hg => ?_, fun k hk => ?_⟩
  · obtain ⟨function, hfunction⟩ := Module.contains_iff_get?.1 hg
    have hname : m.functionNames[Key.toNat g]? = some (m.funcName g) := by
      rw [funcName, hfunction, functionNames, List.getElem?_map, ← Arena.get?_eq_getElem?_toList]
      exact congrArg (Option.map Function.name) hfunction
    exact ⟨List.mem_of_getElem? hname, ofNat_idxOf_eq hm.names g hname⟩
  · have hlabel := Body.labels_getElem? k hk
    exact ⟨List.mem_of_getElem? hlabel, ofNat_idxOf_eq (Body.labels_nodup hblocks) k hlabel⟩

lemma length_indices (n : UInt32) : (indices n).length = n.toNat := by
  rw [indices, List.length_map, List.length_range]

lemma inOrder_indices (n : UInt32) : Tree.InOrder (indices n) := by
  have hall : ∀ i ∈ List.range n.toNat, (UInt32.ofNat i).toNat = i := fun i hi =>
    UInt32.toNat_ofNat_of_lt' (Nat.lt_trans (List.mem_range.1 hi) n.toNat_lt)
  rw [Tree.InOrder, length_indices, indices]
  exact map_map_eq_self hall

lemma Function.labels_tree : (f.tree m h).labels = f.body.labels := by
  rw [Tree.Function.labels, tree, List.map_map]
  rfl

lemma Function.vars_tree : (f.tree m h).vars = indices f.body.vars := by
  have hvar : ∀ is : List UInt32, (is.map Tree.Decl.var).filterMap Tree.Decl.var? = is := fun is => by
    rw [List.filterMap_map]
    exact List.filterMap_some
  have htemp : ∀ is : List UInt32, (is.map Tree.Decl.temp).filterMap Tree.Decl.var? = [] := fun is => by
    rw [List.filterMap_map]
    exact List.filterMap_eq_nil_iff.2 fun _ _ => rfl
  rw [Tree.Function.vars, tree, List.filterMap_append, hvar, htemp, List.append_nil]

lemma Function.temps_tree : (f.tree m h).temps = indices f.body.temps := by
  have hvar : ∀ is : List UInt32, (is.map Tree.Decl.var).filterMap Tree.Decl.temp? = [] := fun is => by
    rw [List.filterMap_map]
    exact List.filterMap_eq_nil_iff.2 fun _ _ => rfl
  have htemp : ∀ is : List UInt32, (is.map Tree.Decl.temp).filterMap Tree.Decl.temp? = is := fun is => by
    rw [List.filterMap_map]
    exact List.filterMap_some
  rw [Tree.Function.temps, tree, List.filterMap_append, hvar, htemp, List.nil_append]

lemma Attribute.str?_tree (value : String) :
    Literal.str? (String.ofList (Quoted.encode value.toList)).toList = some value := by
  rw [String.toList_ofList, Literal.str?_encode]

lemma Attribute.valid_tree (a : Attribute) : a.tree.Valid := by
  intro arg' harg'
  obtain ⟨arg, -, rfl⟩ := List.mem_map.1 harg'
  exact (Literal.str?_eq_some_iff.1 (str?_tree arg.2)).1

lemma Attribute.denote_tree (a : Attribute) : a.tree.denote = a := by
  have hargs : (a.args.map fun arg => (⟨arg.1, String.ofList (Quoted.encode arg.2.toList)⟩ : Tree.AttrArg)).map
      (·.denote) = a.args :=
    map_map_eq_self fun arg _ => congrArg (arg.1, ·) (Literal.str?_eq_some_iff.1 (str?_tree arg.2)).2
  exact congrArg (Attribute.mk a.name) hargs

lemma Function.map_snd_entries : f.body.blocks.entries.map (·.2) = f.body.blocks.toList := by
  rw [Arena.entries, List.map_map]
  exact List.zipIdx_map_fst ..

lemma Module.Writable.wellFormed_body (hm : m.Writable) (hf : f ∈ m.functions.toList) : f.body.WellFormed m :=
  Module.verifies_iff_wellFormed.1 hm.verifies f hf

lemma Module.Writable.finite (hm : m.Writable) (hf : f ∈ m.functions.toList) {k : Block}
    (hk : k ∈ f.body.blocks.toList) : ∀ c ∈ k.constants, c.Finite := fun c hc =>
  (hm.functions f hf).body.constants c (List.mem_flatMap.2 ⟨k, hk, hc⟩)

lemma Function.valid_tree (hm : m.Writable) (hf : f ∈ m.functions.toList) :
    (f.tree m h).Valid m.functionNames where
  attrs := by
    intro a' ha'
    obtain ⟨a, -, rfl⟩ := List.mem_map.1 ha'
    exact a.valid_tree
  params := inOrder_indices _
  vars := by
    rw [vars_tree]
    exact inOrder_indices _
  temps := by
    rw [temps_tree]
    exact inOrder_indices _
  labels := by
    rw [labels_tree]
    exact Body.labels_nodup (hm.functions f hf).body.blocks
  blocks := by
    intro k' hk'
    obtain ⟨e, he, rfl⟩ := List.mem_map.1 hk'
    have hmem := Arena.snd_mem_of_mem_entries he
    rw [labels_tree]
    exact Block.valid_tree e.1 (hm.names_scope hf) ((hm.wellFormed_body hf).blocks e.2 hmem) (hm.finite hf hmem)

lemma Function.denote_tree (hm : m.Writable) (hf : f ∈ m.functions.toList) :
    (f.tree m h).denote m.functionNames = f := by
  have hattrs : (f.attrs.map Attribute.tree).map (·.denote) = f.attrs :=
    map_map_eq_self fun a _ => a.denote_tree
  have hblocks : (f.tree m h).blocks.map (·.denote ⟨m.functionNames, f.body.labels⟩) = f.body.blocks.toList := by
    rw [tree, List.map_map, ← map_snd_entries]
    refine List.map_congr_left fun e he => ?_
    have hmem := Arena.snd_mem_of_mem_entries he
    exact Block.denote_tree e.1 (hm.names_scope hf) ((hm.wellFormed_body hf).blocks e.2 hmem) (hm.finite hf hmem)
  have hbody : (f.tree m h).body m.functionNames = f.body := by
    rw [Tree.Function.body, vars_tree, temps_tree, labels_tree, hblocks, length_indices, length_indices,
      Arena.ofList_toList]
    have hparams : (f.tree m h).params.length = f.body.args.toNat := length_indices _
    rw [hparams, UInt32.ofNat_toNat, UInt32.ofNat_toNat, UInt32.ofNat_toNat]
  rw [Tree.Function.denote, hbody]
  exact congrArg (Function.mk f.name · f.body) hattrs

lemma Function.fits_tree (hm : m.Writable) (hf : f ∈ m.functions.toList) : (f.tree m h).Fits where
  vars := by
    rw [vars_tree, length_indices]
    exact f.body.vars.toNat_lt
  temps := by
    rw [temps_tree, length_indices]
    exact f.body.temps.toNat_lt
  blocks := by
    rw [tree, List.length_map, Arena.entries, List.length_map, List.length_zipIdx, Arena.length_toList]
    exact (hm.functions f hf).body.blocks

end Functions

section Modules

variable {m : Module} {h : ∀ f ∈ m.functions.toList, f.body.blocks.entries ≠ []}

lemma Module.mem_tree {t : Tree.Function} (ht : t ∈ m.tree h) :
    ∃ f, ∃ hf : f ∈ m.functions.toList, f.tree m (h f hf) = t := List.mem_pmap.1 ht

lemma Module.names_tree : (m.tree h).names = m.functionNames := by
  rw [Tree.names, tree, List.map_pmap]
  exact List.pmap_eq_map ..

lemma Module.valid_tree (hm : m.Writable) : (m.tree h).Valid where
  names := by
    rw [names_tree]
    exact hm.names
  functions := by
    intro t ht
    obtain ⟨f, hf, rfl⟩ := mem_tree ht
    rw [names_tree]
    exact Function.valid_tree hm hf

lemma Module.fits_tree (hm : m.Writable) : (m.tree h).Fits where
  size := by
    rw [tree, List.length_pmap, Arena.length_toList]
    exact hm.size
  functions := by
    intro t ht
    obtain ⟨f, hf, rfl⟩ := mem_tree ht
    exact Function.fits_tree hm hf

/-- The derivation denotes the functions of the module. -/
lemma Module.functions_denote_tree (hm : m.Writable) (name : String) :
    ((m.tree h).denote name).functions = m.functions := by
  have hmap : (m.tree h).map (·.denote m.functionNames) = m.functions.toList := by
    rw [tree, List.map_pmap, List.pmap_congr_left (g := fun f _ => f) _ fun f hf _ _ => Function.denote_tree hm hf]
    exact (List.pmap_eq_map h).trans (List.map_id _)
  rw [Tree.denote, names_tree, hmap, Arena.ofList_toList]

end Modules

end BlockIR
