import BlockIR.Proofs.Listing
import BlockIR.Proofs.RoundTrip.Derivation
import Mathlib.Data.List.Forall2
import Mathlib.Data.List.Induction

/-!
# Tokens of printed code

The text of each piece of a module has the tokens of its derivation.
-/

namespace BlockIR

namespace Leaf

def tokens (ls : List Leaf) : List Token := ls.map (·.token)

lemma tokens_cons (l : Leaf) (ls : List Leaf) : tokens (l :: ls) = l.token :: tokens ls := rfl

lemma tokens_append (ls ls' : List Leaf) : tokens (ls ++ ls') = tokens ls ++ tokens ls' := List.map_append

lemma tokens_placed (p : Pos) (ls : List Leaf) : tokens (placed p ls) = tokens ls := by
  cases ls
  · rfl
  · rfl

lemma tokens_flatMap {α : Type} (f : α → List Leaf) (xs : List α) :
    tokens (xs.flatMap f) = xs.flatMap fun x => tokens (f x) := List.map_flatMap

lemma commas_concat (lss : List (List Leaf)) (ls : List Leaf) :
    commas (lss ++ [ls]) = lss.flatMap (· ++ [mark .comma]) ++ ls := by
  induction lss with
  | nil => rfl
  | cons l lss ih =>
    have hcons : commas (l :: (lss ++ [ls])) = l ++ mark .comma :: commas (lss ++ [ls]) := by
      cases lss
      · rfl
      · rfl
    rw [List.cons_append, hcons, ih, List.flatMap_cons]
    simp only [List.append_assoc, List.nil_append, List.cons_append]

end Leaf

namespace Token

open Leaf (tokens)

section Names

lemma localIndex?_toDigits (i : UInt32) : localIndex? (Nat.toDigits 10 i.toNat) = some i := by
  have hlt : i.toNat < UInt32.size := i.toNat_lt
  simp only [localIndex?, Numeral.below?, Numeral.value?_toDigits, Option.filter_some, hlt, decide_true,
    if_true, Option.map_some, UInt32.ofNat_toNat]

lemma open_indexed {start : String} {k : Token} (n : Nat) (c : Char) (cs : List Char)
    (hstart : start.toList = c :: cs) (hc : isWordStart c) (hcs : ∀ d ∈ cs, isWordChar d)
    (hkeyword : ∀ e ∈ keywords, (c :: cs).isPrefixOf e.1.toList = false)
    (hk : (local? (c :: cs ++ Nat.toDigits 10 n)).getD (.ident (String.ofList (c :: cs ++ Nat.toDigits 10 n))) = k) :
    Open (start ++ toString n) [k] := by
  have htext : (start ++ toString n).toList = c :: cs ++ Nat.toDigits 10 n := by
    rw [String.toList_append, hstart, Nat.toString_eq_repr, Nat.toList_repr]
  refine open_word ?_ ?_
  · refine ⟨c, cs ++ Nat.toDigits 10 n, htext, hc, fun d hd => ?_⟩
    rcases List.mem_append.1 hd with hd | hd
    · exact hcs d hd
    · exact isWordChar_of_isDigit (Numeral.isDigit_of_mem_toDigits n d hd)
  · rw [htext, ofWord_of_prefix hkeyword, hk]

lemma open_label (b : BlockId) : Open b.text [.ident b.text] := by
  refine open_indexed b.index.toNat 'b' ['b'] rfl rfl (List.all_eq_true.1 rfl) (by decide) ?_
  have htext : String.ofList ('b' :: ['b'] ++ Nat.toDigits 10 b.index.toNat) = b.text := by
    rw [String.ofList_append]
    rfl
  rw [htext]
  rfl

lemma open_place (p : Place) : Open p.text [p.token] := by
  cases p with
  | result => exact open_keyword (by decide)
  | arg i =>
    refine open_indexed i.toNat 'a' ['r', 'g'] rfl rfl (List.all_eq_true.1 rfl) (by decide) ?_
    show ((localIndex? (Nat.toDigits 10 i.toNat)).map Token.arg).getD _ = _
    rw [localIndex?_toDigits]
    rfl
  | var i =>
    refine open_indexed i.toNat 'v' ['a', 'r'] rfl rfl (List.all_eq_true.1 rfl) (by decide) ?_
    show ((localIndex? (Nat.toDigits 10 i.toNat)).map Token.var).getD _ = _
    rw [localIndex?_toDigits]
    rfl
  | temp i =>
    refine open_indexed i.toNat 't' ['m', 'p'] rfl rfl (List.all_eq_true.1 rfl) (by decide) ?_
    show ((localIndex? (Nat.toDigits 10 i.toNat)).map Token.temp).getD _ = _
    rw [localIndex?_toDigits]
    rfl

lemma open_constant {c : Constant} (h : c.Finite) : Open c.text [c.tree.token] := by
  cases c with
  | int n => exact open_toString_int n.toInt
  | uint n => exact (closed_uint_text n).open
  | float x => exact Binary64.open_toText h
  | str s => exact (closed_quote s).open
  | bool b =>
    cases b with
    | true => exact open_keyword (by decide)
    | false => exact open_keyword (by decide)

lemma open_binOp (op : BinOp) : Open op.name [.binOp op] := open_keyword (mem_keywords_binOp op)

lemma open_unOp (op : UnOp) : Open op.name [.unOp op] := open_keyword (mem_keywords_unOp op)

end Names

section Rows

variable {s : String} {ks ks' : List Token}

lemma closed_of_eval (hlast : ∀ rest, scanAll ks.length (s.toList ++ rest) = ks)
    (h : ∀ n rest, scanAll (n + 1 + ks.length) (s.toList ++ rest) = ks ++ scanAll (n + 1) rest) : Closed s ks := by
  intro n rest
  cases n with
  | zero =>
    rw [Nat.zero_add, hlast]
    exact (List.append_nil _).symm
  | succ n => exact h n rest

lemma Open.congr (h : Open s ks) (heq : ks = ks') : Open s ks' := heq ▸ h

lemma Closed.congr (h : Closed s ks) (heq : ks = ks') : Closed s ks' := heq ▸ h

lemma closed_comma : Closed ", " [.mark .comma] := closed_of_eval (fun _ => rfl) fun _ _ => rfl

lemma closed_parenOpen : Closed "(" [.mark .parenOpen] := fun _ _ => rfl

lemma closed_parenClose : Closed ")" [.mark .parenClose] := fun _ _ => rfl

lemma closed_squareClose : Closed "]" [.mark .squareClose] := fun _ _ => rfl

lemma closed_equals : Closed " = " [.mark .eq] := closed_of_eval (fun _ => rfl) fun _ _ => rfl

lemma closed_colon : Closed ": " [.mark .colon] := closed_of_eval (fun _ => rfl) fun _ _ => rfl

lemma closed_semi : Closed ";\n" [.mark .semi] := closed_of_eval (fun _ => rfl) fun _ _ => rfl

lemma closed_const : Closed "const " [.keyword .const] := closed_of_eval (fun _ => rfl) fun _ _ => rfl

lemma open_commaSeparated {items : List String} {lss : List (List Leaf)}
    (h : List.Forall₂ (fun s ls => Open s (tokens ls)) items lss) :
    Open (commaSeparated items) (tokens (Leaf.commas lss)) := by
  unfold commaSeparated
  induction h with
  | nil => exact closed_empty.open
  | @cons s ls items lss hs hrest ih =>
    cases hrest with
    | nil => exact hs
    | @cons s' ls' items lss hs' hrest =>
      rw [String.intercalate_cons_cons]
      refine ((hs.append_closed closed_comma fun _ => rfl).append_open ih).congr ?_
      have hcommas : Leaf.commas (ls :: ls' :: lss) = ls ++ Leaf.mark .comma :: Leaf.commas (ls' :: lss) := rfl
      rw [hcommas, Leaf.tokens_append, Leaf.tokens_cons, List.append_assoc]
      rfl

lemma closed_join {texts : List String} {kss : List (List Token)} (h : List.Forall₂ Closed texts kss) :
    Closed (String.join texts) kss.flatten := by
  induction h with
  | nil => exact closed_empty
  | cons hs _ ih =>
    rw [String.join_cons, List.flatten_cons]
    exact hs.append ih

lemma closed_lines {texts : List String} {kss : List (List Token)} (h : List.Forall₂ Closed texts kss) :
    Closed (String.intercalate "\n" texts) kss.flatten := by
  have hline : Closed "\n" [] := closed_of_eval (fun _ => rfl) fun _ _ => rfl
  induction h with
  | nil => exact closed_empty
  | @cons s ks texts kss hs hrest ih =>
    cases hrest with
    | nil =>
      rw [List.flatten_cons, List.flatten_nil, List.append_nil]
      exact hs
    | cons hs' hrest =>
      rw [String.intercalate_cons_cons, List.flatten_cons]
      refine ((hs.append hline).append ih).congr ?_
      rw [List.append_nil]

lemma forall₂_map {α β γ : Type} {R : β → γ → Prop} {f : α → β} {g : α → γ} {xs : List α}
    (h : ∀ x ∈ xs, R (f x) (g x)) : List.Forall₂ R (xs.map f) (xs.map g) := by
  rw [List.forall₂_map_left_iff, List.forall₂_map_right_iff]
  exact List.forall₂_same.2 h

lemma forall₂_map_pmap {α β γ : Type} {P : α → Prop} {R : β → γ → Prop} {f : α → β} {g : ∀ x, P x → γ}
    {xs : List α} {hxs : ∀ x ∈ xs, P x} (h : ∀ x ∈ xs, ∀ hx, R (f x) (g x hx)) :
    List.Forall₂ R (xs.map f) (xs.pmap g hxs) := by
  induction xs with
  | nil => exact .nil
  | cons x xs ih =>
    rw [List.forall_mem_cons] at h
    exact .cons (h.1 _) (ih h.2)

end Rows

section Code

variable {m : Module} {b : Body}

/-- The functions that exist have names that are identifiers. -/
def Named (m : Module) : Prop := ∀ g, m.functions.contains g → IsIdent (m.funcName g)

lemma open_operand {x : Operand} (hm : Named m) (hx : x.WellFormed m b) (hc : ∀ c ∈ x.constants, c.Finite) :
    Open (x.text m) (tokens (x.tree m).leaves) := by
  cases x with
  | read p => exact open_place p
  | const c => exact closed_const.append_open (open_constant (hc c List.mem_cons_self))
  | func g => exact closed_const.append_open (hm g hx).open

lemma open_callee {x : Operand} (hm : Named m) (hx : x.WellFormed m b) (hc : ∀ c ∈ x.constants, c.Finite) :
    Open (x.calleeText m) (tokens (x.calleeTree m).leaves) := by
  have htext := open_operand hm hx hc
  cases x with
  | read p => exact htext
  | const c => exact htext
  | func g => exact (hm g hx).open

lemma open_rvalue {r : Rvalue} (hm : Named m) (hr : r.WellFormed m b) (hc : ∀ c ∈ r.constants, c.Finite) :
    Open (r.text m) (tokens (r.tree m).leaves) := by
  cases r with
  | use x => exact open_operand hm hr hc
  | unary op x =>
    have hx := open_operand hm hr hc
    have hhead := (open_unOp op).append_closed closed_parenOpen fun _ => rfl
    exact ((hhead.append_open hx).append_closed closed_parenClose fun _ => rfl).open.congr
      (by simp [Rvalue.tree, Tree.Rvalue.leaves, tokens, Leaf.of, Leaf.mark])
  | binary op x y =>
    rw [Rvalue.constants, List.forall_mem_append] at hc
    have hx := open_operand hm hr.1 hc.1
    have hy := open_operand hm hr.2 hc.2
    have hhead := (open_binOp op).append_closed closed_parenOpen fun _ => rfl
    have hfirst := (hhead.append_open hx).append_closed closed_comma fun _ => rfl
    exact ((hfirst.append_open hy).append_closed closed_parenClose fun _ => rfl).open.congr
      (by simp [Rvalue.tree, Tree.Rvalue.leaves, tokens, Leaf.of, Leaf.mark])

/-- The text has the tokens of these leaves except for a semicolon at their end. -/
def Ends (s : String) (ls : List Leaf) : Prop := ∃ ks, Open s ks ∧ tokens ls = ks ++ [.mark .semi]

lemma ends_action {a : Action} (hm : Named m) (ha : a.WellFormed m b) (hc : ∀ c ∈ a.constants, c.Finite) :
    Ends (a.text m) (a.tree m).leaves := by
  cases a with
  | assign p r =>
    have hhead := (open_place p).append_closed closed_equals fun _ => rfl
    exact ⟨_, hhead.append_open (open_rvalue hm ha.2 hc),
      by simp [Action.tree, Tree.Action.leaves, tokens, Leaf.of, Leaf.mark]⟩
  | drop k p =>
    have hword : ∀ s, Closed s [.keyword (Tree.dropWord k), .mark .parenOpen] → Ends (s ++ p.text ++ ")")
        ((Action.drop k p).tree m).leaves := fun s hs =>
      ⟨_, ((hs.append_open (open_place p)).append_closed closed_parenClose fun _ => rfl).open,
        by simp [Action.tree, Tree.Action.leaves, tokens, Leaf.of, Leaf.mark, Leaf.word]⟩
    cases k with
    | free => exact hword "drop(" (closed_of_eval (fun _ => rfl) fun _ _ => rfl)
    | deep => exact hword "drop_deep(" (closed_of_eval (fun _ => rfl) fun _ _ => rfl)

lemma open_switchCases {cases : List Constant} (targets : List BlockId) (hc : ∀ c ∈ cases, c.Finite) :
    Open (commaSeparated (switchCases cases targets)) (tokens (Leaf.commas
      ((caseTrees cases targets).map Tree.Case.leaves ++
        (targets[cases.length]?.map fun b => [.word .otherwise, .mark .colon, .ident b.text]).toList))) := by
  refine open_commaSeparated (List.rel_append ?_ ?_)
  · rw [caseTrees, List.map_map]
    refine forall₂_map ?_
    rintro ⟨c, t⟩ hmem
    have hconstant := open_constant (hc c (List.of_mem_zip hmem).1)
    exact (hconstant.append_closed closed_colon fun _ => rfl).append_open (open_label t)
  · have hother : Closed "otherwise: " [.keyword .otherwise, .mark .colon] :=
      closed_of_eval (fun _ => rfl) fun _ _ => rfl
    cases targets[cases.length]? with
    | none => exact .nil
    | some t => exact .cons (hother.append_open (open_label t)) .nil

lemma leaves_switchTree (p : Place) (cs : List Tree.Case) (l : Option String) :
    (switchTree p cs l).leaves =
      [.word .switchInt, .mark .parenOpen, .of p.token, .mark .parenClose, .mark .arrow, .mark .squareOpen] ++
        Leaf.commas (cs.map Tree.Case.leaves ++
          (l.map fun l => [.word .otherwise, .mark .colon, .ident l]).toList) ++
        [.mark .squareClose, .mark .semi] := by
  unfold switchTree
  cases l with
  | some l =>
    rw [Option.map_some, Option.toList_some, Leaf.commas_concat, List.flatMap_map]
    simp [Tree.Transfer.leaves, Tree.Ending.leaves]
  | none =>
    rw [Option.map_none, Option.toList_none, List.append_nil]
    cases hlast : cs.getLast? with
    | none =>
      rw [List.getLast?_eq_none_iff.1 hlast]
      rfl
    | some c =>
      obtain ⟨before, rfl⟩ := List.getLast?_eq_some_iff.1 hlast
      rw [List.map_append, List.map_singleton, Leaf.commas_concat, List.flatMap_map]
      simp [Tree.Transfer.leaves, Tree.Ending.leaves]

lemma open_arguments {xs : List Operand} (hm : Named m) (hxs : ∀ x ∈ xs, x.WellFormed m b)
    (hc : ∀ c ∈ xs.flatMap Operand.constants, c.Finite) :
    Open (commaSeparated (xs.map (Operand.text m)))
      (tokens (Leaf.commas ((xs.map (Operand.tree m)).map Tree.Operand.leaves))) := by
  rw [List.map_map]
  refine open_commaSeparated (forall₂_map fun x hx => ?_)
  exact open_operand hm (hxs x hx) fun c hcx => hc c (List.mem_flatMap.2 ⟨x, hx, hcx⟩)

lemma ends_transfer {t : Transfer} (hm : Named m) (ht : t.InputsWellFormed m b)
    (hc : ∀ c ∈ t.constants, c.Finite) : Ends (t.text m) (t.tree m).leaves := by
  cases t with
  | ret => exact ⟨[.keyword .ret], open_place .result, rfl⟩
  | diverge =>
    have hdiverge : Open "diverge" [.keyword .diverge] := open_keyword (by decide)
    exact ⟨_, hdiverge, rfl⟩
  | goto k =>
    have hgoto : Closed "goto -> " [.keyword .goto, .mark .arrow] := closed_of_eval (fun _ => rfl) fun _ _ => rfl
    exact ⟨_, hgoto.append_open (open_label k), rfl⟩
  | panic k =>
    have hpanic : Closed "panic -> " [.keyword .panic, .mark .arrow] :=
      closed_of_eval (fun _ => rfl) fun _ _ => rfl
    exact ⟨_, hpanic.append_open (open_label k), rfl⟩
  | branch x k k' =>
    have hif : Closed "if(" [.keyword .if_, .mark .parenOpen] := closed_of_eval (fun _ => rfl) fun _ _ => rfl
    have htrue : Closed ") -> [true: "
        [.mark .parenClose, .mark .arrow, .mark .squareOpen, .bool true, .mark .colon] :=
      closed_of_eval (fun _ => rfl) fun _ _ => rfl
    have hfalse : Closed ", false: " [.mark .comma, .bool false, .mark .colon] :=
      closed_of_eval (fun _ => rfl) fun _ _ => rfl
    have hcond := (hif.append_open (open_operand hm ht hc)).append_closed htrue fun _ => rfl
    have hfirst := (hcond.append_open (open_label k)).append_closed hfalse fun _ => rfl
    have hsecond := (hfirst.append_open (open_label k')).append_closed closed_squareClose fun _ => rfl
    exact ⟨_, hsecond.open, by
      simp [Transfer.tree, Tree.Transfer.leaves, tokens, Leaf.of, Leaf.mark, Leaf.word, Leaf.ident]⟩
  | switch p cases targets =>
    have hswitch : Closed "switchInt(" [.keyword .switchInt, .mark .parenOpen] :=
      closed_of_eval (fun _ => rfl) fun _ _ => rfl
    have hopen : Closed ") -> [" [.mark .parenClose, .mark .arrow, .mark .squareOpen] :=
      closed_of_eval (fun _ => rfl) fun _ _ => rfl
    have hsubject := (hswitch.append_open (open_place p)).append_closed hopen fun _ => rfl
    have hcases := hsubject.append_open (open_switchCases targets hc)
    refine ⟨_, (hcases.append_closed closed_squareClose fun _ => rfl).open, ?_⟩
    rw [Transfer.tree, leaves_switchTree, Option.map_map, Leaf.tokens_append, Leaf.tokens_append]
    simp only [List.append_assoc]
    rfl
  | call p f xs k =>
    rw [Transfer.constants, List.forall_mem_append] at hc
    obtain ⟨-, hf, hxs, -⟩ := ht
    have hcall : Closed " = call " [.mark .eq, .keyword .call] := closed_of_eval (fun _ => rfl) fun _ _ => rfl
    have harrow : Closed ") -> " [.mark .parenClose, .mark .arrow] :=
      closed_of_eval (fun _ => rfl) fun _ _ => rfl
    have hdest := (open_place p).append_closed hcall fun _ => rfl
    have hcallee := (hdest.append_open (open_callee hm hf hc.1)).append_closed closed_parenOpen fun _ => rfl
    have hargs := (hcallee.append_open (open_arguments hm hxs hc.2)).append_closed harrow fun _ => rfl
    refine ⟨_, hargs.append_open (open_label k), ?_⟩
    simp [Transfer.tree, Tree.Transfer.leaves, tokens, Leaf.of, Leaf.mark, Leaf.word, Leaf.ident]

lemma closed_block {k : Block} (name : BlockId) (hm : Named m) (hk : k.WellFormed m b)
    (hc : ∀ c ∈ k.constants, c.Finite) : Closed (k.text m name) (tokens (k.tree m name).leaves) := by
  rw [Block.constants, List.forall_mem_append] at hc
  have hindent : Closed "    " [] := closed_of_eval (fun _ => rfl) fun _ _ => rfl
  have hbegin : Closed ": \x7b\n" [.mark .colon, .mark .curlyOpen] := closed_of_eval (fun _ => rfl) fun _ _ => rfl
  have hindent' : Closed "        " [] := closed_of_eval (fun _ => rfl) fun _ _ => rfl
  have hend : Closed ";\n    \x7d\n" [.mark .semi, .mark .curlyClose] :=
    closed_of_eval (fun _ => rfl) fun _ _ => rfl
  have hstatements : Closed (String.join (k.statements.map fun st => "        " ++ st.action.text m ++ ";\n"))
      (k.statements.map fun st => tokens (st.tree m).leaves).flatten := by
    refine closed_join (forall₂_map fun st hst => ?_)
    have haction := ends_action hm (hk.actions st hst) fun c hcst =>
      hc.1 c (List.mem_flatMap.2 ⟨st, hst, hcst⟩)
    obtain ⟨ks, hopen, hks⟩ := haction
    refine ((hindent'.append_open hopen).append_closed closed_semi fun _ => rfl).congr ?_
    rw [Tree.Statement.leaves, Leaf.tokens_placed]
    exact hks.symm
  obtain ⟨ks, hopen, hks⟩ := ends_transfer hm hk.transfer.inputs hc.2
  have hname := (hindent.append_open (open_label name)).append_closed hbegin fun _ => rfl
  have hbody := (((hname.append hstatements).append hindent').append_open hopen).append_closed hend fun _ => rfl
  refine hbody.congr ?_
  have hterminator : tokens (k.terminator.tree m).leaves = ks ++ [.mark .semi] := by
    rw [Tree.Terminator.leaves, Leaf.tokens_placed]
    exact hks
  rw [Tree.Block.leaves, Leaf.tokens_append, Leaf.tokens_append, Leaf.tokens_append, Leaf.tokens_flatMap,
    Block.tree, hterminator, List.flatMap_map, List.flatMap_def]
  simp [tokens, Leaf.of, Leaf.mark, Leaf.ident]

end Code

section Functions

variable {m : Module} {f : Function}

lemma closed_attribute {a : Attribute} (ha : a.Writable) : Closed a.text (tokens a.tree.leaves) := by
  have hhash : Closed "#[" [.mark .hash, .mark .squareOpen] := closed_of_eval (fun _ => rfl) fun _ _ => rfl
  have hend : Closed "]\n" [.mark .squareClose] := closed_of_eval (fun _ => rfl) fun _ _ => rfl
  have hname := hhash.append_open ha.name.open
  have hargs : Open (commaSeparated (a.args.map fun arg => arg.1 ++ " = " ++ Quoted.quote arg.2))
      (tokens (Leaf.commas (a.tree.args.map Tree.AttrArg.leaves))) := by
    rw [Attribute.tree, List.map_map]
    refine open_commaSeparated (forall₂_map fun arg harg => ?_)
    have hkey := (ha.keys arg harg).open.append_closed closed_equals fun _ => rfl
    exact (hkey.append (closed_quote arg.2)).open
  have htext : a.text = "#[" ++ a.name ++ (if a.args.isEmpty then "" else
      "(" ++ commaSeparated (a.args.map fun arg => arg.1 ++ " = " ++ Quoted.quote arg.2) ++ ")") ++ "]\n" := by
    rw [Attribute.text, List.isEmpty_map]
  rw [htext]
  by_cases hempty : a.args = []
  · rw [hempty, List.isEmpty_nil, if_pos rfl, String.append_empty]
    refine (hname.append_closed hend fun _ => rfl).congr ?_
    rw [Tree.Attr.leaves, Attribute.tree, hempty]
    rfl
  · rw [if_neg (by rw [List.isEmpty_iff]; exact hempty)]
    have hparens := (closed_parenOpen.append_open hargs).append_closed closed_parenClose fun _ => rfl
    have hlist := (hname.append_closed hparens fun rest => by
      rw [String.toList_append, String.toList_append]
      rfl).append hend
    refine hlist.congr ?_
    have hleaves : Tree.Attr.argLeaves a.tree.args =
        [.mark .parenOpen] ++ Leaf.commas (a.tree.args.map Tree.AttrArg.leaves) ++ [.mark .parenClose] := by
      cases hargs' : a.tree.args with
      | nil => exact absurd (List.map_eq_nil_iff.1 hargs') hempty
      | cons arg args => rfl
    rw [Tree.Attr.leaves, hleaves]
    simp [tokens, Leaf.of, Leaf.mark, Leaf.ident, Attribute.tree]

lemma toNat_of_lt {n : UInt32} {i : Nat} (h : i ∈ List.range n.toNat) : (UInt32.ofNat i).toNat = i :=
  UInt32.toNat_ofNat_of_lt' (Nat.lt_trans (List.mem_range.1 h) n.toNat_lt)

lemma closed_declarations (b : Body) :
    Closed b.declarations (tokens (((indices b.vars).map Tree.Decl.var ++ (indices b.temps).map Tree.Decl.temp).flatMap
      Tree.Decl.leaves)) := by
  have hlet : Closed "    let " [.keyword .let_] := closed_of_eval (fun _ => rfl) fun _ _ => rfl
  have hempty : Closed (if b.vars = 0 ∧ b.temps = 0 then "" else "\n") [] := by
    split
    · exact closed_empty
    · exact closed_of_eval (fun _ => rfl) fun _ _ => rfl
  have hdecl : ∀ p : Place, Closed ("    let " ++ p.text ++ ";\n") [.keyword .let_, p.token, .mark .semi] :=
    fun p => (hlet.append_open (open_place p)).append_closed closed_semi fun _ => rfl
  have hvars : Closed (String.join ((List.range b.vars.toNat).map fun i => "    let var" ++ toString i ++ ";\n"))
      ((List.range b.vars.toNat).map fun i => tokens (Tree.Decl.var (UInt32.ofNat i)).leaves).flatten := by
    refine closed_join (forall₂_map fun i hi => ?_)
    have hplace := hdecl (.var (UInt32.ofNat i))
    rw [Place.text, toNat_of_lt hi, ← String.append_assoc] at hplace
    exact hplace
  have htemps : Closed (String.join ((List.range b.temps.toNat).map fun i => "    let tmp" ++ toString i ++ ";\n"))
      ((List.range b.temps.toNat).map fun i => tokens (Tree.Decl.temp (UInt32.ofNat i)).leaves).flatten := by
    refine closed_join (forall₂_map fun i hi => ?_)
    have hplace := hdecl (.temp (UInt32.ofNat i))
    rw [Place.text, toNat_of_lt hi, ← String.append_assoc] at hplace
    exact hplace
  refine ((hvars.append htemps).append hempty).congr ?_
  rw [List.append_nil, Leaf.tokens_flatMap, List.flatMap_append, indices, indices, List.map_map, List.map_map,
    List.flatMap_map, List.flatMap_map]
  rfl

lemma open_params (n : UInt32) :
    Open (commaSeparated ((List.range n.toNat).map fun i => "arg" ++ toString i))
      (tokens (Leaf.commas ((indices n).map Tree.paramLeaves))) := by
  rw [indices, List.map_map]
  refine open_commaSeparated (forall₂_map fun i hi => ?_)
  have hplace := open_place (.arg (UInt32.ofNat i))
  rw [Place.text, toNat_of_lt hi] at hplace
  exact hplace

lemma Named.ofWritable (hm : m.Writable) : Named m := by
  intro g hg
  obtain ⟨function, hfunction⟩ := Module.contains_iff_get?.1 hg
  have hmem : function ∈ m.functions.toList := by
    rw [Module.get?, Arena.get?_eq_getElem?_toList] at hfunction
    exact List.mem_of_getElem? hfunction
  rw [Module.funcName, hfunction]
  exact (hm.functions function hmem).name

lemma closed_function {h : f.body.blocks.entries ≠ []} (hm : m.Writable) (hf : f ∈ m.functions.toList) :
    Closed (f.text m) (tokens (f.tree m h).leaves) := by
  have hfn : Closed "fn " [.keyword .fn] := closed_of_eval (fun _ => rfl) fun _ _ => rfl
  have hbegin : Closed ") \x7b\n" [.mark .parenClose, .mark .curlyOpen] :=
    closed_of_eval (fun _ => rfl) fun _ _ => rfl
  have hend : Closed "\x7d\n" [.mark .curlyClose] := closed_of_eval (fun _ => rfl) fun _ _ => rfl
  have hattrs : Closed (String.join (f.attrs.map Attribute.text)) (f.attrs.map fun a => tokens a.tree.leaves).flatten :=
    closed_join (forall₂_map fun a ha => closed_attribute ((hm.functions f hf).attrs a ha))
  have hblocks : Closed (String.intercalate "\n" (f.body.blocks.entries.map fun e => e.2.text m e.1))
      (f.body.blocks.entries.map fun e => tokens (e.2.tree m e.1).leaves).flatten := by
    refine closed_lines (forall₂_map fun e he => ?_)
    have hmem := Arena.snd_mem_of_mem_entries he
    exact closed_block e.1 (.ofWritable hm) ((hm.wellFormed_body hf).blocks e.2 hmem) (hm.finite hf hmem)
  have hname := ((hattrs.append hfn).append_open (hm.functions f hf).name.open).append_closed closed_parenOpen
    fun _ => rfl
  have hhead := (hname.append_open (open_params f.body.args)).append_closed hbegin fun _ => rfl
  refine (((hhead.append (closed_declarations f.body)).append hblocks).append hend).congr ?_
  simp only [Tree.Function.leaves, Tree.Function.bodyLeaves, Leaf.tokens_append, Leaf.tokens_flatMap,
    Function.tree, List.flatMap_map, List.append_assoc]
  simp only [List.flatMap_def]
  rfl

lemma closed_module {h : ∀ f ∈ m.functions.toList, f.body.blocks.entries ≠ []} (hm : m.Writable) :
    Closed m.text (tokens (m.tree h).leaves) := by
  have htokens : tokens (m.tree h).leaves =
      (m.functions.toList.pmap (fun f hf => tokens (f.tree m hf).leaves) h).flatten := by
    rw [Tree.leaves, Leaf.tokens_flatMap, List.flatMap_def, Module.tree, List.map_pmap]
  rw [Module.text_eq, htokens]
  exact closed_lines (forall₂_map_pmap fun f hf _ => closed_function hm hf)

end Functions

end Token

end BlockIR
