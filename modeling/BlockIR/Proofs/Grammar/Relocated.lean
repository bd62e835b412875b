import BlockIR.Proofs.Grammar.Relocation

/-!
# The parser of tokens that are moved

Every part of the parser gives the same of tokens that are moved: statements and terminators with their positions
moved, and all else as it was.
-/

namespace BlockIR

namespace Relocation

variable {σ : Type} {R : Relocation} {lx lx' : Lexeme} {ts ts' : List Lexeme}

section Code

variable (scope : Scope)

lemma isLegible_of_place {t : Token} {p : Place} (h : Place.ofToken? t = some p) : t.isLegible := by
  cases t with
  | unknown s => cases h
  | str s => cases h
  | _ => rfl

lemma isLegible_of_constant {t : Token} {c : Constant} (h : Constant.ofToken? t = some (some c)) :
    t.isLegible := by
  cases t with
  | unknown s => cases h
  | str s =>
    obtain ⟨text, htext, -⟩ := Option.map_eq_some_iff.1 (Option.some.inj h)
    exact Option.isSome_of_mem htext
  | _ => rfl

lemma agree_place : R.Agree Eq Parser.place Parser.place := by
  refine agree_next fun lx lx' ts ts' hlx hrests => ?_
  rw [R.token_eq hlx]
  cases hplace : Place.ofToken? lx.token with
  | some p => exact .ok rfl (hrests.tail (isLegible_of_place hplace))
  | none => exact .error (.at hlx _)

lemma agree_constant : R.Agree Eq Parser.constant Parser.constant := by
  refine agree_next fun lx lx' ts ts' hlx hrests => ?_
  rw [R.token_eq hlx]
  rcases hconstant : Constant.ofToken? lx.token with _ | _ | c
  · exact .error (.at hlx _)
  · exact .error (.at hlx _)
  · exact .ok rfl (hrests.tail (isLegible_of_constant hconstant))

lemma agree_literal : R.Agree Eq (Parser.literal scope) (Parser.literal scope) := by
  refine agree_peek fun lx lx' ts ts' hlx hrests => ?_
  have hconstant : R.Agree Eq (Parser.constant >>= fun c => pure (Operand.const c))
      (Parser.constant >>= fun c => pure (Operand.const c)) := agree_constant.then fun c => agree_pure rfl
  rw [R.token_eq hlx]
  cases ht : lx.token with
  | ident name =>
    have htail := hrests.tail (by rw [ht]; rfl)
    cases hf : scope.function? name with
    | some f =>
      simp only [hf]
      exact .ok rfl htail
    | none =>
      simp only [hf]
      exact .error (.at hlx _)
  | _ => exact hconstant _ _ hrests

lemma agree_operand : R.Agree Eq (Parser.operand scope) (Parser.operand scope) := by
  refine agree_peek fun lx lx' ts ts' hlx hrests => ?_
  have hread : R.Agree Eq (Parser.place >>= fun p => pure (Operand.read p))
      (Parser.place >>= fun p => pure (Operand.read p)) := agree_place.then fun p => agree_pure rfl
  rw [R.token_eq hlx]
  split
  · next ht => exact agreeAt_skip (agree_literal scope) hrests (by rw [ht]; rfl)
  · split
    · exact hread _ _ hrests
    · exact .error (.at hlx _)

lemma agree_front? : R.Agree Eq Parser.front? Parser.front? :=
  fun _ _ hrests => .ok hrests.head?_eq.symm hrests

lemma agree_callee : R.Agree Eq (Parser.callee scope) (Parser.callee scope) := by
  refine agree_front?.then fun t => ?_
  split
  · exact agree_literal scope
  · exact agree_operand scope

lemma agree_rvalue : R.Agree Eq (Parser.rvalue scope) (Parser.rvalue scope) := by
  intro ts ts' hrests
  unfold Parser.rvalue AgreeAt
  rw [Parser.front?_bind, Parser.front?_bind, hrests.head?_eq]
  change R.AgreeAt Eq _ ts _ ts'
  split
  · next op hfront =>
    refine ((agree_mark _ _).then fun _ => (agree_operand scope).then fun x => ?_) _ _ (hrests.drop hfront rfl)
    refine (agree_mark _ _).then fun _ => (agree_operand scope).then fun y => ?_
    exact (agree_mark _ _).then fun _ => agree_pure rfl
  · next op hfront =>
    refine ((agree_mark _ _).then fun _ => (agree_operand scope).then fun x => ?_) _ _ (hrests.drop hfront rfl)
    exact (agree_mark _ _).then fun _ => agree_pure rfl
  · exact ((agree_operand scope).then fun x => agree_pure rfl) _ _ hrests

lemma agree_target : R.Agree Eq (Parser.target scope) (Parser.target scope) := by
  refine (agree_ident _).bind ?_
  rintro ⟨label, lx⟩ ⟨_, lx'⟩ ⟨rfl, hlx⟩
  dsimp only
  split
  · exact agree_pure rfl
  · exact agree_reject hlx _

lemma agree_separator (s : σ) : R.Agree Eq (Parser.separator s) (Parser.separator s) := by
  refine agree_next fun lx lx' ts ts' hlx hrests => ?_
  rw [R.token_eq hlx]
  split
  · next ht => exact .ok rfl (hrests.tail (by rw [ht]; rfl))
  · next ht => exact .ok rfl (hrests.tail (by rw [ht]; rfl))
  · exact .error (.at hlx _)

section Lists

variable {item : σ → Parser σ}

lemma agree_commaItems (hle : ∀ s ts s' ts', item s ts = .ok (s', ts') → ts'.length ≤ ts.length)
    (hitem : ∀ s, R.Agree Eq (item s) (item s)) (s : σ) :
    R.Agree Eq (Parser.commaItems item s) (Parser.commaItems item s) :=
  agree_loop_same (Parser.shortens_separated hle) (fun s => (hitem s).then agree_separator) s

lemma agree_parenthesized (hle : ∀ s ts s' ts', item s ts = .ok (s', ts') → ts'.length ≤ ts.length)
    (hitem : ∀ s, R.Agree Eq (item s) (item s)) (s : σ) :
    R.Agree Eq (Parser.parenthesized item s) (Parser.parenthesized item s) :=
  agree_nextIs rfl (agree_pure rfl) (agree_commaItems hle hitem s)

end Lists

lemma agree_arguments :
    R.Agree Eq (Parser.parenthesized (fun (xs : Array Operand) => return xs.push (← Parser.operand scope)) #[])
      (Parser.parenthesized (fun (xs : Array Operand) => return xs.push (← Parser.operand scope)) #[]) := by
  refine agree_parenthesized (fun xs ts xs' ts' h => ?_) (fun xs => ?_) #[]
  · exact Parser.length_le_of_argument scope h
  · exact (agree_operand scope).then fun x => agree_pure rfl

lemma agree_assignment (p : Place) : R.Agree Eq (Parser.assignment scope p) (Parser.assignment scope p) := by
  refine (agree_mark _ _).then fun _ => agree_nextIs rfl ?_ ?_
  · refine (agree_callee scope).then fun f => (agree_mark _ _).then fun _ => ?_
    refine (agree_arguments scope).then fun xs => (agree_mark _ _).then fun _ => ?_
    exact (agree_target scope).then fun b => (agree_mark _ _).then fun _ => agree_pure rfl
  · exact (agree_rvalue scope).then fun r => (agree_mark _ _).then fun _ => agree_pure rfl

lemma agree_switchCase (cases : Parser.Cases) :
    R.Agree Eq (Parser.switchCase scope cases) (Parser.switchCase scope cases) := by
  refine agree_peek fun lx lx' ts ts' hlx hrests => ?_
  rw [R.token_eq hlx]
  split
  · next ht => exact agreeAt_skip (agree_pure rfl) hrests (by rw [ht]; rfl)
  · next ht =>
    refine agreeAt_skip ((agree_mark _ _).then fun _ => (agree_target scope).then fun b => ?_) hrests
      (by rw [ht]; rfl)
    exact (agree_mark _ _).then fun _ => agree_pure rfl
  · refine (agree_constant.then fun c => (agree_mark _ _).then fun _ => (agree_target scope).then fun b => ?_)
      _ _ hrests
    exact agree_nextIs rfl (agree_pure rfl) ((agree_mark _ _).then fun _ => agree_pure rfl)

section Taken

variable (hrests : R.Rests (lx :: ts) (lx' :: ts')) (hlx : lx.token.isLegible)
include hrests hlx

lemma agreeAt_drop (kind : DropKind) :
    R.AgreeAt Eq (Parser.drop kind) (lx :: ts) (Parser.drop kind) (lx' :: ts') := by
  refine agreeAt_skip ((agree_mark _ _).then fun _ => agree_place.then fun p => ?_) hrests hlx
  exact (agree_mark _ _).then fun _ => (agree_mark _ _).then fun _ => agree_pure rfl

lemma agreeAt_jump (arrow : String) :
    R.AgreeAt Eq (Parser.jump scope arrow) (lx :: ts) (Parser.jump scope arrow) (lx' :: ts') := by
  refine agreeAt_skip ((agree_mark _ _).then fun _ => (agree_target scope).then fun b => ?_) hrests hlx
  exact (agree_mark _ _).then fun _ => agree_pure rfl

lemma agreeAt_branch : R.AgreeAt Eq (Parser.branch scope) (lx :: ts) (Parser.branch scope) (lx' :: ts') := by
  refine agreeAt_skip ((agree_mark _ _).then fun _ => (agree_operand scope).then fun c => ?_) hrests hlx
  refine (agree_mark _ _).then fun _ => (agree_mark _ _).then fun _ => (agree_mark _ _).then fun _ => ?_
  refine (agree_expected rfl _).then fun _ => (agree_mark _ _).then fun _ => (agree_target scope).then fun t => ?_
  refine (agree_mark _ _).then fun _ => (agree_expected rfl _).then fun _ => (agree_mark _ _).then fun _ => ?_
  refine (agree_target scope).then fun e => (agree_mark _ _).then fun _ => (agree_mark _ _).then fun _ => ?_
  exact agree_pure rfl

lemma agreeAt_switch : R.AgreeAt Eq (Parser.switch scope) (lx :: ts) (Parser.switch scope) (lx' :: ts') := by
  refine agreeAt_skip ((agree_mark _ _).then fun _ => agree_place.then fun p => ?_) hrests hlx
  refine (agree_mark _ _).then fun _ => (agree_mark _ _).then fun _ => (agree_mark _ _).then fun _ => ?_
  refine (agree_loop_same (Parser.shortens_switchCase scope) (agree_switchCase scope) #[]).then fun cases => ?_
  exact (agree_mark _ _).then fun _ => agree_pure rfl

end Taken

lemma agreeAt_action (hlx : R.Moves lx lx') (hrests : R.Rests (lx :: ts) (lx' :: ts')) :
    R.AgreeAt Eq (Parser.action scope lx) (lx :: ts) (Parser.action scope lx') (lx' :: ts') := by
  have hassign : R.Agree Eq (Parser.place >>= Parser.assignment scope) (Parser.place >>= Parser.assignment scope) :=
    agree_place.then (agree_assignment scope)
  unfold Parser.action
  rw [R.token_eq hlx]
  cases ht : lx.token with
  | arg i => exact hassign _ _ hrests
  | var i => exact hassign _ _ hrests
  | temp i => exact hassign _ _ hrests
  | keyword k =>
    have hlegible : lx.token.isLegible := by
      rw [ht]
      rfl
    cases k with
    | drop => exact (agreeAt_drop hrests hlegible .free).bind fun _ _ h => agree_pure (congrArg Sum.inl h)
    | dropDeep => exact (agreeAt_drop hrests hlegible .deep).bind fun _ _ h => agree_pure (congrArg Sum.inl h)
    | ret =>
      refine agreeAt_skip ?_ hrests hlegible
      exact agree_nextIs rfl (agree_pure rfl) (agree_assignment scope .result)
    | goto =>
      refine (agreeAt_jump scope hrests hlegible _).bind fun b b' h => agree_pure ?_
      rw [h]
    | if_ => exact (agreeAt_branch scope hrests hlegible).bind fun _ _ h => agree_pure (congrArg Sum.inr h)
    | switchInt => exact (agreeAt_switch scope hrests hlegible).bind fun _ _ h => agree_pure (congrArg Sum.inr h)
    | diverge =>
      exact agreeAt_skip ((agree_mark _ _).then fun _ => agree_pure rfl) hrests hlegible
    | panic =>
      refine (agreeAt_jump scope hrests hlegible _).bind fun b b' h => agree_pure ?_
      rw [h]
    | _ => exact .error (.at hlx _)
  | _ => exact .error (.at hlx _)

end Code

section Heads

lemma agree_nextIs_same (t : Token) : R.Agree Eq (Parser.nextIs t) (Parser.nextIs t) :=
  agree_front?.then fun _ => agree_pure rfl

lemma agree_param (n : Nat) : R.Agree Eq (Parser.param n) (Parser.param n) := by
  refine agree_next fun lx lx' ts ts' hlx hrests => ?_
  rw [R.token_eq hlx]
  split
  · next i ht =>
    split
    · exact .ok rfl (hrests.tail (by rw [ht]; rfl))
    · exact .error (.at hlx _)
  · exact .error (.at hlx _)

lemma agree_params : R.Agree Eq Parser.params Parser.params :=
  (agree_mark _ _).then fun _ =>
    agree_parenthesized (fun _ _ _ _ h => Parser.param_reads.length_le h) agree_param 0

/-- Drafts of code that is moved. -/
def Redrafts (R : Relocation) (d d' : Draft) : Prop := d.mapPos R.pos = d'

lemma agree_decl (d : Draft) : R.Agree (Sum.LiftRel R.Redrafts R.Redrafts)
    (Parser.decl d) (Parser.decl (d.mapPos R.pos)) := by
  refine agree_nextIs rfl (agree_next fun lx lx' ts ts' hlx hrests => ?_) (agree_pure (.inr rfl))
  have hend (d : Draft) : R.Agree (Sum.LiftRel R.Redrafts R.Redrafts)
      (discard (Parser.expectMark .semi "`;` after declaration") >>= fun _ => pure (.inl d))
      (discard (Parser.expectMark .semi "`;` after declaration") >>= fun _ => pure (.inl (d.mapPos R.pos))) :=
    (agree_mark _ _).then fun _ => agree_pure (.inl rfl)
  have hvars : (d.mapPos R.pos).vars = d.vars := rfl
  have htemps : (d.mapPos R.pos).temps = d.temps := rfl
  rw [R.token_eq hlx]
  simp only [hvars, htemps]
  split
  · next i ht =>
    have htail := hrests.tail (by rw [ht]; rfl)
    split
    · exact hend d.declareVar.2 _ _ htail
    · exact .error (.at hlx _)
  · next i ht =>
    have htail := hrests.tail (by rw [ht]; rfl)
    split
    · exact hend d.declareTemp.2 _ _ htail
    · exact .error (.at hlx _)
  · exact .error (.at hlx _)

lemma agree_decls (d : Draft) :
    R.Agree R.Redrafts (Parser.loop Parser.decl d) (Parser.loop Parser.decl (d.mapPos R.pos)) := by
  refine agree_loop (S := R.Redrafts) Parser.shortens_decl ?_ rfl
  rintro d _ rfl
  exact agree_decl d

lemma agree_attrArg (args : Array (String × String)) :
    R.Agree Eq (Parser.attrArg args) (Parser.attrArg args) := by
  refine (agree_ident _).bind ?_
  rintro ⟨key, _⟩ ⟨_, _⟩ ⟨rfl, -⟩
  refine (agree_mark _ _).then fun _ => agree_next fun lx lx' ts ts' hlx hrests => ?_
  rw [R.token_eq hlx]
  split
  · next spelling ht =>
    cases hvalue : Literal.str? spelling.toList with
    | some value =>
      refine .ok rfl (hrests.tail ?_)
      rw [ht]
      exact Option.isSome_of_mem hvalue
    | none => exact .error (.at hlx _)
  · exact .error (.at hlx _)

lemma agree_attr : R.Agree Eq Parser.attr Parser.attr := by
  refine (agree_mark _ _).then fun _ => (agree_mark _ _).then fun _ => (agree_ident _).bind ?_
  rintro ⟨name, _⟩ ⟨_, _⟩ ⟨rfl, -⟩
  have hend (args : Array (String × String)) : R.Agree Eq
      (discard (Parser.expectMark .squareClose "`]` to close attribute") >>= fun _ =>
        pure (⟨name, args.toList⟩ : Attribute))
      (discard (Parser.expectMark .squareClose "`]` to close attribute") >>= fun _ =>
        pure (⟨name, args.toList⟩ : Attribute)) :=
    (agree_mark _ _).then fun _ => agree_pure rfl
  have hargs : R.Agree Eq (Parser.commaItems Parser.attrArg #[]) (Parser.commaItems Parser.attrArg #[]) :=
    agree_commaItems (fun _ _ _ _ h => Parser.attrArg_reads.length_le h) agree_attrArg #[]
  exact agree_nextIs rfl (hargs.then hend) ((agree_pure rfl).then hend)

lemma agree_attrs (as : Array Attribute) :
    R.Agree Eq (Parser.loop Parser.attrs as) (Parser.loop Parser.attrs as) := by
  refine agree_loop_same Parser.shortens_attrs (fun as => (agree_nextIs_same _).then fun isHash => ?_) as
  split
  · exact agree_attr.then fun a => agree_pure rfl
  · exact agree_pure rfl

end Heads

section Bodies

variable (scope : Scope)

lemma agree_drafted (e : Except DraftFault Draft) (h : R.Moves lx lx') :
    R.Agree R.Redrafts (Parser.drafted lx e) (Parser.drafted lx' (e.map (·.mapPos R.pos))) := by
  cases e with
  | ok d => exact agree_pure rfl
  | error fault => exact agree_reject h _

lemma agree_line (d : Draft) : R.Agree (Sum.LiftRel R.Redrafts R.Redrafts)
    (Parser.line scope d) (Parser.line scope (d.mapPos R.pos)) := by
  refine agree_peek fun lx lx' ts ts' hlx hrests => (agreeAt_action scope hlx hrests).bind ?_
  rintro x _ rfl
  rw [R.pos_eq hlx]
  cases x with
  | inl a =>
    have happend := d.append_mapPos R.pos ⟨a, lx.pos⟩
    dsimp only [Statement.mapPos] at happend ⊢
    rw [happend]
    exact (agree_drafted _ hlx).bind fun _ _ h => agree_pure (.inl h)
  | inr t =>
    have hterminate := d.terminate_mapPos R.pos ⟨t, lx.pos⟩
    dsimp only [Terminator.mapPos] at hterminate ⊢
    rw [hterminate]
    exact (agree_drafted _ hlx).bind fun _ _ h => agree_pure (.inr h)

lemma agree_block (d : Draft) :
    R.Agree R.Redrafts (Parser.block scope d) (Parser.block scope (d.mapPos R.pos)) := by
  refine (agree_ident _).bind ?_
  rintro ⟨label, lx⟩ ⟨_, lx'⟩ ⟨rfl, hlx⟩
  dsimp only
  split
  · exact agree_reject hlx _
  · next b _ =>
    refine (agree_mark _ _).then fun _ => (agree_mark _ _).then fun _ => ?_
    rw [d.switchTo_mapPos]
    refine (agree_drafted _ hlx).bind ?_
    rintro d _ rfl
    have hlines : R.Agree R.Redrafts (Parser.loop (Parser.line scope) d)
        (Parser.loop (Parser.line scope) (d.mapPos R.pos)) := by
      refine agree_loop (S := R.Redrafts) (Parser.shortens_line scope) ?_ rfl
      rintro d _ rfl
      exact agree_line scope d
    exact hlines.bind fun _ _ h => (agree_mark _ _).then fun _ => agree_pure h

lemma agree_blocks (d : Draft) : R.Agree (Sum.LiftRel R.Redrafts R.Redrafts)
    (Parser.blocks scope d) (Parser.blocks scope (d.mapPos R.pos)) := by
  refine (agree_nextIs_same _).then fun closes => ?_
  split
  · exact agree_pure (.inr rfl)
  · exact (agree_block scope d).bind fun _ _ h => agree_pure (.inl h)

end Bodies

section Names

/-- Looking ahead collects the same names, or it stops at the same token. -/
inductive Collects (R : Relocation) : Except Stop (List String) → Except Stop (List String) → Prop
  | ok (names : List String) : Collects R (.ok names) (.ok names)
  | error {lx lx' : Lexeme} (h : R.Moves lx lx') (c : Complaint) :
      Collects R (.error (.at lx c)) (.error (.at lx' c))

lemma collects_blockLabels (depth : Nat) (labels : List String) (h : List.Forall₂ R.Moves ts ts') :
    R.Collects (Scope.blockLabels depth labels ts) (Scope.blockLabels depth labels ts') := by
  induction h generalizing depth labels with
  | nil => exact .ok labels
  | @cons lx lx' ts ts' hlx hts ih =>
    have hhead : ts'.head?.map (·.token) = ts.head?.map (·.token) := by
      cases hts with
      | nil => rfl
      | cons hlx _ => exact congrArg some (R.token_eq hlx)
    unfold Scope.blockLabels
    rw [R.token_eq hlx, hhead]
    split
    · exact ih _ _
    · split
      · exact .ok labels
      · exact ih _ _
    · split
      · split
        · exact .error hlx _
        · exact ih _ _
      · exact ih _ _
    · exact ih _ _

lemma collects_functionNames (depth : Nat) (names : List String) (h : List.Forall₂ R.Moves ts ts') :
    R.Collects (Scope.functionNames depth names ts) (Scope.functionNames depth names ts') := by
  induction h generalizing depth names with
  | nil => exact .ok names
  | @cons lx lx' ts ts' hlx hts ih =>
    unfold Scope.functionNames
    rw [R.token_eq hlx]
    split
    · exact ih _ _
    · exact ih _ _
    · cases hts with
      | nil => cases depth <;> exact ih _ _
      | @cons lx₂ lx₂' ts ts' hlx₂ hts =>
        obtain ⟨t, span⟩ := lx₂
        obtain ⟨t', span'⟩ := lx₂'
        obtain rfl : t' = t := R.token_eq hlx₂
        cases depth with
        | succ depth => exact ih _ _
        | zero =>
          cases t' with
          | ident name =>
            show R.Collects (if name ∈ names then _ else _) (if name ∈ names then _ else _)
            split
            · exact .error hlx₂ _
            · exact ih _ _
          | _ => exact ih _ _
    · exact ih _ _

lemma agree_lookAhead {f : List Lexeme → Except Stop (List String)}
    (h : ∀ ts ts', List.Forall₂ R.Moves ts ts' → R.Collects (f ts) (f ts')) :
    R.Agree Eq (Parser.lookAhead f) (Parser.lookAhead f) := by
  intro ts ts' hrests
  have hf := h ts ts' hrests.moves
  unfold Parser.lookAhead AgreeAt
  dsimp only
  generalize f ts = r at hf
  generalize f ts' = r' at hf
  cases hf with
  | ok names => exact .ok rfl hrests
  | error hlx c => exact .error (.at hlx c)

end Names

section Modules

lemma agree_body (functions : List String) (name : String) (args : Nat) (hlx : R.Moves lx lx') :
    R.Agree (fun b b' => b.mapPos R.pos = b') (Parser.body functions name args lx)
      (Parser.body functions name args lx') := by
  have hstart : (Draft.start (.ofNat args)).mapPos R.pos = .start (.ofNat args) := by
    simp only [Draft.mapPos, Draft.start, Array.map_empty]
  have hdecls := agree_decls (R := R) (.start (.ofNat args))
  rw [hstart] at hdecls
  refine hdecls.bind ?_
  rintro d _ rfl
  refine (agree_lookAhead fun ts ts' => collects_blockLabels 0 []).then fun labels => ?_
  split
  · exact agree_reject hlx _
  · rw [d.createBlocks_mapPos]
    have hblocks : R.Agree R.Redrafts
        (Parser.loop (Parser.blocks ⟨functions, labels⟩) (d.createBlocks labels.length))
        (Parser.loop (Parser.blocks ⟨functions, labels⟩) ((d.createBlocks labels.length).mapPos R.pos)) := by
      refine agree_loop (S := R.Redrafts) (Parser.shortens_blocks _) ?_ rfl
      rintro d _ rfl
      exact agree_blocks _ d
    refine hblocks.bind ?_
    rintro d _ rfl
    refine (agree_expect rfl _).bind fun closing closing' hclosing => ?_
    rw [d.finish_mapPos]
    cases d.finish with
    | ok b => exact agree_pure rfl
    | error b => exact agree_reject hclosing _

lemma agree_function (names : List String) (m : Module) :
    R.Agree (fun m m' => m.mapPos R.pos = m') (Parser.function names m)
      (Parser.function names (m.mapPos R.pos)) := by
  refine (agree_attrs #[]).then fun attrs => (agree_expected rfl _).then fun _ => (agree_ident _).bind ?_
  rintro ⟨name, lx⟩ ⟨_, lx'⟩ ⟨rfl, hlx⟩
  refine agree_params.then fun args => (agree_expect rfl _).bind fun opening opening' hopening => ?_
  have hkey : (m.mapPos R.pos).functions.nextKey = m.functions.nextKey := by
    simp only [Arena.nextKey, Arena.size, Module.mapPos, Arena.map, Array.size_map]
  dsimp only
  rw [hkey]
  split
  · refine (agree_body names name args hopening).bind ?_
    rintro b _ rfl
    refine agree_pure ?_
    rw [m.declare_mapPos, Module.define_mapPos]
  · exact agree_reject hlx _

lemma agree_module (name : String) :
    R.Agree (fun m m' => m.mapPos R.pos = m') (Parser.module name) (Parser.module name) := by
  refine (agree_lookAhead fun ts ts' => collects_functionNames 0 []).then fun names => ?_
  have hempty : (Module.empty name).mapPos R.pos = .empty name := by
    simp only [Module.mapPos, Module.empty, Arena.map, Arena.empty, Array.map_empty]
  refine agree_loop (S := fun m m' => m.mapPos R.pos = m') (Parser.shortens_functions names) ?_ hempty
  rintro m _ rfl
  refine agree_front?.then fun t => ?_
  split
  · exact (agree_function names m).bind fun _ _ h => agree_pure (.inl h)
  · exact agree_pure (.inr rfl)

end Modules

/-- Nothing is moved. What has been taken of the tokens is legible, and only positions of tokens stay as they
are. -/
def still (tokens : List Lexeme) : Relocation where
  Moves lx lx' := lx ∈ tokens ∧ lx' = lx
  pos p := if p ∈ tokens.map Lexeme.pos then p else { p with line := p.line + 1 }
  Left ts := ∃ taken, tokens = taken ++ ts ∧ ∀ lx ∈ taken, lx.token.isLegible
  token_eq h := h.2 ▸ rfl
  pos_eq h := by rw [if_pos (List.mem_map_of_mem h.1), h.2]
  left_tail {lx ts} h hlx := by
    obtain ⟨taken, htokens, htaken⟩ := h
    refine ⟨taken ++ [lx], ?_, fun l hl => ?_⟩
    · rw [htokens, List.append_assoc, List.singleton_append]
    · rcases List.mem_append.1 hl with hl | hl
      · exact htaken l hl
      · exact List.mem_singleton.1 hl ▸ hlx

variable {name : String} {tokens : List Lexeme}

lemma results_still (name : String) (tokens : List Lexeme) :
    (still tokens).Results (fun m m' => m.mapPos (still tokens).pos = m') (Parser.module name tokens)
      (Parser.module name tokens) :=
  agree_module name tokens tokens ⟨⟨[], rfl, List.forall_mem_nil _⟩, List.forall₂_same.2 fun _ hlx => ⟨hlx, rfl⟩⟩

lemma mem_of_pos_still {p : Pos} (h : (still tokens).pos p = p) : p ∈ tokens.map Lexeme.pos := by
  by_contra hp
  have hmoved : (still tokens).pos p = { p with line := p.line + 1 } := if_neg hp
  rw [hmoved] at h
  exact absurd (UInt32.add_eq_left.1 (congrArg Pos.line h)) (by decide)

end Relocation

namespace Module

variable {name : String} {tokens : List Lexeme}

lemma exists_token_of_position {m : Module} (h : ofTokens name tokens = .ok m) {p : Pos} (hp : p ∈ m.positions) :
    ∃ lx ∈ tokens, lx.pos = p := by
  have hstill := Relocation.results_still name tokens
  unfold ofTokens at h
  rcases hm : Parser.module name tokens with e | ⟨m', rest⟩
  · rw [hm] at h
    cases h
  · rw [hm] at h hstill
    obtain rfl : m' = m := Except.ok.inj h
    cases hstill with
    | ok hpos _ =>
      have hmap := m'.positions_mapPos (f := (Relocation.still tokens).pos)
      rw [hpos] at hmap
      have hfixed := List.map_inj_left.1 (hmap.symm.trans (List.map_id _).symm) p hp
      exact List.mem_map.1 (Relocation.mem_of_pos_still hfixed)

/-- Reading stops at a token, or it has come to the end, and then all tokens are legible. -/
lemma exists_token_of_stop {e : Stop} (h : ofTokens name tokens = .error e) :
    (∃ lx ∈ tokens, ∃ c, e = .at lx c) ∨ (∃ c, e = .atEnd c) ∧ ∀ lx ∈ tokens, lx.token.isLegible := by
  have hstill := Relocation.results_still name tokens
  unfold ofTokens at h
  rcases hm : Parser.module name tokens with e' | ⟨m', rest⟩
  · rw [hm] at h hstill
    obtain rfl : e' = e := Except.error.inj h
    cases hstill with
    | error hstops =>
      cases hstops with
      | «at» hlx c => exact .inl ⟨_, hlx.1, c, rfl⟩
      | atEnd hleft c =>
        obtain ⟨taken, htokens, htaken⟩ := hleft
        rw [List.append_nil] at htokens
        exact .inr ⟨⟨c, rfl⟩, htokens ▸ htaken⟩
  · rw [hm] at h
    cases h

end Module

end BlockIR
