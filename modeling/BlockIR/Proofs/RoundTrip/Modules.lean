import BlockIR.Proofs.RoundTrip.Positions

/-!
# Reading undoes writing

The text of a module that can be written is read as a module with the same functions, apart from the
positions of their code, and that module has the same text.
-/

namespace BlockIR

/-- The functions are the same, apart from the positions of their code. -/
def Module.SameCode (m m' : Module) : Prop :=
  m'.functions.toList.map Function.unplaced = m.functions.toList.map Function.unplaced

namespace Module.SameCode

variable {m m' : Module}

lemma size_eq (h : m.SameCode m') : m'.functions.size = m.functions.size := by
  have hlength := congrArg List.length h
  rw [List.length_map, List.length_map, Arena.length_toList, Arena.length_toList] at hlength
  exact hlength

lemma contains_eq (h : m.SameCode m') (g : FuncId) : m'.functions.contains g = m.functions.contains g := by
  rw [Arena.contains, Arena.contains, h.size_eq]

lemma get?_eq (h : m.SameCode m') (g : FuncId) :
    (m'.get? g).map Function.unplaced = (m.get? g).map Function.unplaced := by
  rw [get?, get?, Arena.get?_eq_getElem?_toList, Arena.get?_eq_getElem?_toList, ← List.getElem?_map,
    ← List.getElem?_map, h]

lemma exists_mem (h : m.SameCode m') {f' : Function} (hf' : f' ∈ m'.functions.toList) :
    ∃ f ∈ m.functions.toList, f.unplaced = f'.unplaced := by
  have hmem : f'.unplaced ∈ m'.functions.toList.map Function.unplaced := List.mem_map_of_mem hf'
  rw [h] at hmem
  exact List.mem_map.1 hmem

lemma funcName_eq (h : m.SameCode m') : m'.funcName = m.funcName := by
  funext g
  have hget := h.get?_eq g
  rw [funcName, funcName]
  cases hf' : m'.get? g with
  | none =>
    rw [hf', Option.map_none] at hget
    rw [Option.map_eq_none_iff.1 hget.symm]
  | some f' =>
    rw [hf', Option.map_some] at hget
    obtain ⟨f, hf, hunplaced⟩ := Option.map_eq_some_iff.1 hget.symm
    rw [hf]
    exact (congrArg Function.name hunplaced).symm

end Module.SameCode

section Text

variable {m m' : Module}

lemma Block.text_unplaced (name : BlockId) (b : Block) : b.unplaced.text m name = b.text m name := by
  have hstatements : (b.statements.map Statement.unplaced).map (fun s => "        " ++ s.action.text m ++ ";\n") =
      b.statements.map fun s => "        " ++ s.action.text m ++ ";\n" := by
    rw [List.map_map]
    rfl
  rw [text, text, unplaced, hstatements]
  rfl

lemma Function.text_unplaced (f : Function) : f.unplaced.text m = f.text m := by
  have hblocks : f.unplaced.body.blocks.entries.map (fun e => e.2.text m e.1) =
      f.body.blocks.entries.map fun e => e.2.text m e.1 := by
    have hentries : f.unplaced.body.blocks.entries =
        f.body.blocks.entries.map fun e => (e.1, e.2.unplaced) := by
      rw [Arena.entries, Arena.entries, unplaced, Body.unplaced, Arena.toList_ofList, List.zipIdx_map,
        List.map_map, List.map_map]
      rfl
    rw [hentries, List.map_map]
    exact List.map_congr_left fun e _ => e.2.text_unplaced e.1
  exact congrArg (fun texts => String.join (f.attrs.map Attribute.text) ++ "fn " ++ f.name ++ "(" ++
    commaSeparated ((List.range f.body.args.toNat).map fun i => "arg" ++ toString i) ++ ") \x7b\n" ++
    f.body.declarations ++ String.intercalate "\n" texts ++ "\x7d\n") hblocks

lemma Module.SameCode.text_eq (h : m.SameCode m') : m'.text = m.text := by
  have hunplaced : ∀ fs : List Function,
      fs.map (Function.text m) = (fs.map Function.unplaced).map (Function.text m) := by
    intro fs
    rw [List.map_map]
    exact List.map_congr_left fun f _ => f.text_unplaced.symm
  have hnames : Function.text m' = Function.text m :=
    funext fun f => f.text_congr fun g _ => congrFun h.funcName_eq g
  rw [Module.text_eq, Module.text_eq, hnames, hunplaced, h, ← hunplaced]

end Text

section WellFormed

variable {m m' : Module} {b b' : Body}

/-- Bodies that declare the same locals and have blocks of the same keys, in modules of the same code. -/
structure Body.Agrees (m m' : Module) (b b' : Body) : Prop where
  code : m.SameCode m'
  declares : b'.declares = b.declares
  size : b'.blocks.size = b.blocks.size

lemma Operand.wellFormed_of_agrees (h : b.Agrees m m' b') {x : Operand} (hx : x.WellFormed m b) :
    x.WellFormed m' b' := by
  cases x with
  | read p =>
    show b'.declares p
    rw [h.declares]
    exact hx
  | const c => trivial
  | func g =>
    show m'.functions.contains g
    rw [h.code.contains_eq]
    exact hx

lemma Rvalue.wellFormed_of_agrees (h : b.Agrees m m' b') {r : Rvalue} (hr : r.WellFormed m b) :
    r.WellFormed m' b' := by
  cases r with
  | use x => exact Operand.wellFormed_of_agrees h hr
  | unary op x => exact Operand.wellFormed_of_agrees h hr
  | binary op x y => exact ⟨Operand.wellFormed_of_agrees h hr.1, Operand.wellFormed_of_agrees h hr.2⟩

lemma Body.Agrees.declares_of (h : b.Agrees m m' b') {p : Place} (hp : b.declares p) : b'.declares p := by
  rw [h.declares]
  exact hp

lemma Action.wellFormed_of_agrees (h : b.Agrees m m' b') {a : Action} (ha : a.WellFormed m b) :
    a.WellFormed m' b' := by
  cases a with
  | assign p r => exact ⟨h.declares_of ha.1, Rvalue.wellFormed_of_agrees h ha.2⟩
  | drop k p => exact h.declares_of ha

lemma Operand.takes_of_sameCode (h : m.SameCode m') {x : Operand} {given : Nat} (hx : x.Takes m given) :
    x.Takes m' given := by
  cases x with
  | read p => trivial
  | const c => trivial
  | func g =>
    intro f' hf'
    have hget := h.get?_eq g
    rw [Option.mem_def.1 hf', Option.map_some] at hget
    obtain ⟨f, hf, hunplaced⟩ := Option.map_eq_some_iff.1 hget.symm
    have hargs : f.body.args = f'.body.args := congrArg (·.body.args) hunplaced
    rw [← hargs]
    exact hx f hf

lemma Transfer.wellFormed_of_agrees (h : b.Agrees m m' b') {t : Transfer} (ht : t.WellFormed m b) :
    t.WellFormed m' b' := by
  refine ⟨?_, fun k hk => ?_⟩
  · have hinputs := ht.inputs
    cases t with
    | ret => trivial
    | diverge => trivial
    | goto k => trivial
    | panic k => trivial
    | branch c k k' => exact Operand.wellFormed_of_agrees h hinputs
    | switch p cases targets => exact ⟨h.declares_of hinputs.1, hinputs.2⟩
    | call p f xs k =>
      obtain ⟨hp, hf, hxs, htakes⟩ := hinputs
      exact ⟨h.declares_of hp, Operand.wellFormed_of_agrees h hf,
        fun x hx => Operand.wellFormed_of_agrees h (hxs x hx), Operand.takes_of_sameCode h.code htakes⟩
  · rw [Arena.contains, h.size]
    exact ht.targets k hk

lemma Body.wellFormed_of_unplaced (h : m.SameCode m') (hb : b.WellFormed m) (heq : b.unplaced = b'.unplaced) :
    b'.WellFormed m' := by
  have hlists : b.blocks.toList.map Block.unplaced = b'.blocks.toList.map Block.unplaced :=
    congrArg (·.blocks.toList) heq
  have hsize : b'.blocks.size = b.blocks.size := by
    have hlength := congrArg List.length hlists
    rw [List.length_map, List.length_map, Arena.length_toList, Arena.length_toList] at hlength
    exact hlength.symm
  have hargs : b.args = b'.args := congrArg (·.args) heq
  have hvars : b.vars = b'.vars := congrArg (·.vars) heq
  have htemps : b.temps = b'.temps := congrArg (·.temps) heq
  have hdeclares : b'.declares = b.declares := by
    funext p
    cases p <;> simp only [declares, hargs, hvars, htemps]
  have hagrees : b.Agrees m m' b' := ⟨h, hdeclares, hsize⟩
  refine ⟨?_, fun k' hk' => ?_⟩
  · rw [Arena.contains, hsize]
    exact hb.entry
  · have hmem : k'.unplaced ∈ b'.blocks.toList.map Block.unplaced := List.mem_map_of_mem hk'
    rw [← hlists] at hmem
    obtain ⟨k, hk, hunplaced⟩ := List.mem_map.1 hmem
    obtain ⟨hactions, htransfer⟩ := hb.blocks k hk
    refine ⟨fun st' hst' => ?_, ?_⟩
    · have hst : st'.unplaced ∈ k'.unplaced.statements := List.mem_map_of_mem hst'
      rw [← hunplaced] at hst
      obtain ⟨st, hmem', heq'⟩ := List.mem_map.1 hst
      have haction : st.unplaced.action = st'.unplaced.action := congrArg Statement.action heq'
      show st'.unplaced.action.WellFormed m' b'
      rw [← haction]
      exact Action.wellFormed_of_agrees hagrees (hactions st hmem')
    · have hterminator : k.terminator.transfer = k'.terminator.transfer := congrArg (·.terminator.transfer) hunplaced
      rw [← hterminator]
      exact Transfer.wellFormed_of_agrees hagrees htransfer

lemma Module.SameCode.verifies (h : m.SameCode m') (hm : m.verifies) : m'.verifies := by
  refine verifies_iff_wellFormed.2 fun f' hf' => ?_
  obtain ⟨f, hf, hunplaced⟩ := h.exists_mem hf'
  exact Body.wellFormed_of_unplaced h (verifies_iff_wellFormed.1 hm f hf) (congrArg Function.body hunplaced)

end WellFormed

namespace Module

lemma Writable.blocks_ne_nil {m : Module} (hm : m.Writable) :
    ∀ f ∈ m.functions.toList, f.body.blocks.entries ≠ [] := by
  intro f hf hnil
  have hentry : f.body.blocks.contains .entry := (hm.wellFormed_body hf).entry
  have hpos : 0 < f.body.blocks.size := of_decide_eq_true hentry
  rw [Arena.entries, List.map_eq_nil_iff, List.zipIdx_eq_nil_iff] at hnil
  rw [← Arena.length_toList, hnil] at hpos
  exact Nat.lt_irrefl 0 hpos

/-- The text of a module that can be written is read as a module with the same functions, apart from the
positions of their code; its name is the given one, its name table lists the functions in order, and its
text is the same. -/
theorem read_text (m : Module) (hm : m.Writable) (name : String) :
    ∃ m', Module.read name m.text = .ok m' ∧ m'.name = name ∧
      m'.functions.toList.map Function.unplaced = m.functions.toList.map Function.unplaced ∧
      m'.names = .ofList (m.functionNames.zipIdx.map fun (f, i) => (f, Key.ofNat i)) ∧
      m'.text = m.text := by
  have hne := hm.blocks_ne_nil
  have htokens : (Lexeme.ofText m.text).map (·.token) = Leaf.tokens (m.tree hne).leaves ++ [] := by
    rw [List.append_nil]
    exact (Token.closed_module hm).open.tokens_ofText
  obtain ⟨t, rest, ht, hspells, hrest⟩ := respells_tree (m.tree hne) _ _ htokens
  obtain rfl : rest = [] := List.map_eq_nil_iff.1 hrest
  have hvalid : t.Valid := by
    rw [← t.valid_unplaced, ht, Tree.valid_unplaced]
    exact valid_tree hm
  have hfits : t.Fits := by
    rw [← t.fits_unplaced, ht, Tree.fits_unplaced]
    exact fits_tree hm
  have hcode : m.SameCode (t.denote name) := by
    rw [SameCode, ← Tree.functions_denote_unplaced, ht, Tree.functions_denote_unplaced, functions_denote_tree hm]
  have hnames : t.names = m.functionNames := by
    rw [← t.names_unplaced, ht, Tree.names_unplaced, names_tree]
  have hparse : Module.parse name m.text = .ok (t.denote name) :=
    parse_eq_ok_iff.2 (ofTokens_eq_denote hspells hvalid hfits)
  refine ⟨t.denote name, ?_, rfl, hcode, ?_, hcode.text_eq⟩
  · rw [Module.read, hparse]
    exact if_pos (hcode.verifies hm.verifies)
  · rw [Tree.denote, hnames]

/-- A function that calls itself, with an attribute, a declaration of each kind and a literal of each kind. -/
def literals : Module where
  name := "literals"
  functions := .ofList [⟨"loop", [⟨Attribute.startPoint, [(Attribute.expected, "Int(\"0\")\n")]⟩], 1, 1, 1, .ofList [
    ⟨[⟨.assign (.var 0) (.binary .add (.read (.arg 0)) (.const (.int Int64.minValue))), ⟨7, 3⟩⟩,
        ⟨.assign (.temp 0) (.unary .neg (.const (.float (.ofDecimal true 15 (-8))))), .none⟩, ⟨.drop .deep (.var 0), .none⟩],
      ⟨.switch (.arg 0) [.uint 7, .str "\t\\", .bool false] [⟨1⟩, ⟨0⟩, ⟨1⟩, ⟨2⟩], .none⟩⟩,
    ⟨[], ⟨.call .result (.func ⟨0⟩) [.const (.float (.ofDecimal false 1 300))] ⟨2⟩, .none⟩⟩, ⟨[], ⟨.ret, .none⟩⟩]⟩]
  names := .empty

theorem read_text_literals : literals.Writable ∧
    ∃ m', Module.read "copy" literals.text = .ok m' ∧ m'.name = "copy" ∧
      m'.functions.toList.map Function.unplaced = literals.functions.toList.map Function.unplaced ∧
      m'.names = .ofList (literals.functionNames.zipIdx.map fun (f, i) => (f, Key.ofNat i)) ∧
      m'.text = literals.text := by
  have hwritable : literals.Writable := by decide +kernel
  exact ⟨hwritable, read_text literals hwritable "copy"⟩

end Module

end BlockIR
