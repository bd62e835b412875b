import BlockIR.Proofs.Grammar.Bodies

/-!
# What readers complain of

A complaint is about the text, or it says that the parser itself went wrong: that its passes disagree, that a
draft was misused, or that a loop does not end. Readers that do not draft anything have only complaints of the
first kind, and a loop has them if its rounds do.
-/

namespace BlockIR

/-- Complaints that no text can give rise to if the parser is right. -/
inductive Complaint.Internal : Complaint → Prop
  | unfinished (block : BlockId) : Internal (.unfinished block)
  | outOfTurn (function : String) : Internal (.outOfTurn function)
  | misuse (fault : DraftFault) : Internal (.misuse fault)
  | stalled : Internal .stalled

def Stop.complaint : Stop → Complaint
  | .at _ c | .atEnd c => c

lemma Spells.length_lt {ls : List Leaf} {ts rest : List Lexeme} (h : Spells ls ts rest) (hne : ls ≠ []) :
    rest.length < ts.length := by
  have hlength := h.length_eq
  have hpos := List.length_pos_iff.2 hne
  omega

namespace Parser

variable {α β σ : Type}

/-- If the reader stops at these tokens, its complaint is about them. -/
def SafeAt (p : Parser α) (ts : List Lexeme) : Prop := ∀ e, p ts = .error e → ¬ e.complaint.Internal

/-- The reader only complains about the text. -/
def Safe (p : Parser α) : Prop := ∀ ts, p.SafeAt ts

/-- Rounds of a loop, each of which asks for another, lead from one point to another. -/
inductive Reaches (round : σ → Parser (σ ⊕ α)) (s : σ) (ts : List Lexeme) : σ → List Lexeme → Prop
  | refl : Reaches round s ts s ts
  | tail {s₁ s₂ : σ} {ts₁ ts₂ : List Lexeme} :
    Reaches round s ts s₁ ts₁ → round s₁ ts₁ = .ok (.inl s₂, ts₂) → Reaches round s ts s₂ ts₂

/-- A round that asks for another has taken a token. -/
def Shortens (round : σ → Parser (σ ⊕ α)) : Prop :=
  ∀ s ts s' ts', round s ts = .ok (.inl s', ts') → ts'.length < ts.length

section Rules

variable {p : Parser α} {k : α → Parser β} {ts : List Lexeme}

lemma SafeAt.bind (hp : p.SafeAt ts) (hk : ∀ x mid, p ts = .ok (x, mid) → (k x).SafeAt mid) :
    (p >>= k).SafeAt ts := by
  intro e he
  have hbind : (p >>= k) ts = (p ts >>= fun r => k r.1 r.2) := rfl
  rw [hbind] at he
  cases h : p ts with
  | error e' =>
    rw [h] at he
    cases he
    exact hp e h
  | ok r =>
    rw [h] at he
    exact hk r.1 r.2 h e he

lemma Safe.bind (hp : p.Safe) (hk : ∀ x, (k x).Safe) : (p >>= k).Safe :=
  fun ts => (hp ts).bind fun x mid _ => hk x mid

lemma safe_pure (x : α) : (pure x : Parser α).Safe := by
  intro ts e h
  cases h

lemma safe_reject {lx : Lexeme} {c : Complaint} (hc : ¬ c.Internal) : (reject lx c : Parser α).Safe := by
  intro ts e h
  cases h
  exact hc

lemma safe_discard (hp : p.Safe) : (discard p).Safe := by
  intro ts e he
  refine hp ts e ?_
  have hdiscard : (discard p) ts = (p ts >>= fun r => pure ((), r.2)) := rfl
  rw [hdiscard] at he
  cases h : p ts with
  | error e' =>
    rw [h] at he
    cases he
    rfl
  | ok r =>
    rw [h] at he
    cases he

lemma not_internal_expected {what : String} : ¬ (Complaint.expected what).Internal := nofun

lemma safe_next (what : String) : (next what).Safe := by
  intro ts e h
  cases ts with
  | nil =>
    cases h
    exact not_internal_expected
  | cons lx ts => cases h

lemma safe_peek (what : String) : (peek what).Safe := by
  intro ts e h
  cases ts with
  | nil =>
    cases h
    exact not_internal_expected
  | cons lx ts => cases h

lemma safe_front? : front?.Safe := by
  intro ts e h
  cases h

lemma safe_nextIs (t : Token) : (nextIs t).Safe := by
  intro ts e h
  cases h

lemma safe_skip : skip.Safe := by
  intro ts e h
  cases h

lemma safe_expect (t : Token) (what : String) : (expect t what).Safe := by
  refine (safe_next what).bind fun lx => ?_
  split
  · exact safe_pure lx
  · exact safe_reject not_internal_expected

lemma safe_discard_expect (t : Token) (what : String) : (discard (expect t what)).Safe :=
  safe_discard (safe_expect t what)

lemma safe_mark (m : Mark) (what : String) : (discard (expectMark m what)).Safe :=
  safe_discard_expect (.mark m) what

lemma safe_ident (what : String) : (ident what).Safe := by
  refine (safe_next what).bind fun lx => ?_
  split
  · exact safe_pure _
  · exact safe_reject not_internal_expected

lemma safeAt_lookAhead {f : List Lexeme → Except Stop α}
    (hf : ∀ e, f ts = .error e → ¬ e.complaint.Internal) : (lookAhead f).SafeAt ts := by
  intro e he
  unfold lookAhead at he
  cases h : f ts with
  | error e' =>
    rw [h] at he
    cases he
    exact hf e h
  | ok x =>
    rw [h] at he
    cases he

lemma safe_drafted {lx : Lexeme} {e : Except DraftFault α} {x : α} (h : e = .ok x) : (drafted lx e).Safe := by
  rw [h]
  exact safe_pure x

end Rules

section Loops

variable {round : σ → Parser (σ ⊕ α)} {s : σ} {ts : List Lexeme}

/-- A loop of rounds that take tokens has the complaints of the rounds that it comes to. -/
lemma safeAt_loop (hshortens : Shortens round)
    (hround : ∀ s' ts', Reaches round s ts s' ts' → (round s').SafeAt ts') : (loop round s).SafeAt ts := by
  have hrounds : ∀ fuel s' ts', Reaches round s ts s' ts' → ts'.length < fuel →
      ∀ e, rounds round fuel s' ts' = .error e → ¬ e.complaint.Internal := by
    intro fuel
    induction fuel with
    | zero => exact fun s' ts' _ hlength => absurd hlength (Nat.not_lt_zero _)
    | succ fuel ih =>
      intro s' ts' hreach hlength e he
      unfold rounds at he
      rcases hr : round s' ts' with e' | ⟨s₁ | x, ts₁⟩ <;> rw [hr] at he
      · cases he
        exact hround s' ts' hreach e hr
      · have hshorter := hshortens s' ts' s₁ ts₁ hr
        exact ih s₁ ts₁ (hreach.tail hr) (by omega) e he
      · cases he
  exact hrounds _ s ts .refl (Nat.lt_succ_self _)

lemma reaches_of_loop {x : α} {rest : List Lexeme} (h : loop round s ts = .ok (x, rest)) :
    ∃ s' ts', Reaches round s ts s' ts' ∧ round s' ts' = .ok (.inr x, rest) := by
  have hrounds : ∀ fuel s' ts', Reaches round s ts s' ts' → rounds round fuel s' ts' = .ok (x, rest) →
      ∃ s' ts', Reaches round s ts s' ts' ∧ round s' ts' = .ok (.inr x, rest) := by
    intro fuel
    induction fuel with
    | zero =>
      intro s' ts' _ h
      cases h
    | succ fuel ih =>
      intro s' ts' hreach h
      unfold rounds at h
      rcases hr : round s' ts' with e | ⟨s₁ | y, ts₁⟩ <;> rw [hr] at h
      · cases h
      · exact ih s₁ ts₁ (hreach.tail hr) h
      · cases h
        exact ⟨s', ts', hreach, hr⟩
  exact hrounds _ s ts .refl h

lemma safe_loop (hshortens : Shortens round) (hround : ∀ s, (round s).Safe) (s : σ) : (loop round s).Safe :=
  fun _ => safeAt_loop hshortens fun s' ts' _ => hround s' ts'

lemma safe_separator (s : σ) : (separator s).Safe := by
  refine (safe_next _).bind fun lx => ?_
  split
  · exact safe_pure _
  · exact safe_pure _
  · exact safe_reject not_internal_expected

lemma shortens_separated {item : σ → Parser σ}
    (hle : ∀ s ts s' ts', item s ts = .ok (s', ts') → ts'.length ≤ ts.length) :
    Shortens fun s => item s >>= separator := by
  intro s ts s' ts' h
  obtain ⟨s₁, mid, hs₁, hsep⟩ := bind_eq_ok_iff.1 h
  have hitem := hle s ts s₁ mid hs₁
  rcases separator_eq_ok_iff.1 hsep with ⟨hmark, -⟩ | ⟨hmark, -⟩
  · exact Nat.lt_of_lt_of_le (hmark.length_lt (List.cons_ne_nil _ _)) hitem
  · exact Nat.lt_of_lt_of_le (hmark.length_lt (List.cons_ne_nil _ _)) hitem

lemma safe_commaItems {item : σ → Parser σ}
    (hle : ∀ s ts s' ts', item s ts = .ok (s', ts') → ts'.length ≤ ts.length) (hitem : ∀ s, (item s).Safe)
    (s : σ) : (commaItems item s).Safe :=
  safe_loop (shortens_separated hle) (fun s => (hitem s).bind safe_separator) s

lemma safe_parenthesized {item : σ → Parser σ}
    (hle : ∀ s ts s' ts', item s ts = .ok (s', ts') → ts'.length ≤ ts.length) (hitem : ∀ s, (item s).Safe)
    (s : σ) : (parenthesized item s).Safe := by
  refine (safe_nextIs _).bind fun b => ?_
  split
  · exact safe_skip.bind fun _ => safe_pure s
  · exact safe_commaItems hle hitem s

lemma Reads.length_le {τ : Type} {p : Parser α} {leaves : τ → List Leaf} {D : τ → α → Prop}
    (h : p.Reads leaves D) {x : α} {ts ts' : List Lexeme} (hp : p ts = .ok (x, ts')) :
    ts'.length ≤ ts.length := by
  obtain ⟨t, ht, -⟩ := (h ts x ts').1 hp
  have hlength := ht.length_eq
  omega

end Loops

section Code

variable (scope : Scope)

lemma safe_place : place.Safe := by
  refine (safe_next _).bind fun lx => ?_
  split
  · exact safe_pure _
  · exact safe_reject not_internal_expected

lemma safe_constant : constant.Safe := by
  refine (safe_next _).bind fun lx => ?_
  split
  · exact safe_pure _
  · exact safe_reject nofun
  · exact safe_reject not_internal_expected

lemma safe_literal : (literal scope).Safe := by
  refine (safe_peek _).bind fun lx => ?_
  split
  · refine safe_skip.bind fun _ => ?_
    split
    · exact safe_pure _
    · exact safe_reject nofun
  · exact safe_constant.bind fun c => safe_pure _

lemma safe_operand : (operand scope).Safe := by
  refine (safe_peek _).bind fun lx => ?_
  split
  · exact safe_skip.bind fun _ => safe_literal scope
  · split
    · exact safe_place.bind fun p => safe_pure _
    · exact safe_reject not_internal_expected

lemma safe_callee : (callee scope).Safe := by
  refine safe_front?.bind fun t => ?_
  split
  · exact safe_literal scope
  · exact safe_operand scope

lemma safe_rvalue : (rvalue scope).Safe := by
  refine safe_front?.bind fun t => ?_
  split
  · refine safe_skip.bind fun _ => (safe_mark _ _).bind fun _ => (safe_operand scope).bind fun x => ?_
    refine (safe_mark _ _).bind fun _ => (safe_operand scope).bind fun y => ?_
    exact (safe_mark _ _).bind fun _ => safe_pure _
  · refine safe_skip.bind fun _ => (safe_mark _ _).bind fun _ => (safe_operand scope).bind fun x => ?_
    exact (safe_mark _ _).bind fun _ => safe_pure _
  · exact (safe_operand scope).bind fun x => safe_pure _

lemma safe_target : (target scope).Safe := by
  refine (safe_ident _).bind fun (label, lx) => ?_
  dsimp only
  split
  · exact safe_pure _
  · exact safe_reject nofun

lemma length_le_of_argument {xs xs' : Array Operand} {ts ts' : List Lexeme}
    (h : (do return xs.push (← operand scope) : Parser (Array Operand)) ts = .ok (xs', ts')) :
    ts'.length ≤ ts.length := by
  obtain ⟨x, mid, hx, h⟩ := bind_eq_ok_iff.1 h
  obtain ⟨-, rfl⟩ := pure_eq_ok_iff.1 h
  exact operand_reads.length_le hx

lemma safe_arguments :
    (parenthesized (fun (xs : Array Operand) => return xs.push (← operand scope)) #[]).Safe := by
  refine safe_parenthesized (fun xs ts xs' ts' h => ?_) (fun xs => ?_) #[]
  · exact length_le_of_argument scope h
  · exact (safe_operand scope).bind fun x => safe_pure _

lemma safe_assignment (p : Place) : (assignment scope p).Safe := by
  refine (safe_mark _ _).bind fun _ => (safe_nextIs _).bind fun b => ?_
  split
  · refine safe_skip.bind fun _ => (safe_callee scope).bind fun f => (safe_mark _ _).bind fun _ => ?_
    refine (safe_arguments scope).bind fun xs => (safe_mark _ _).bind fun _ => ?_
    exact (safe_target scope).bind fun t => (safe_mark _ _).bind fun _ => safe_pure _
  · exact (safe_rvalue scope).bind fun r => (safe_mark _ _).bind fun _ => safe_pure _

lemma safe_drop (kind : DropKind) : (drop kind).Safe :=
  safe_skip.bind fun _ => (safe_mark _ _).bind fun _ => safe_place.bind fun _ => (safe_mark _ _).bind fun _ =>
    (safe_mark _ _).bind fun _ => safe_pure _

lemma safe_jump (arrow : String) : (jump scope arrow).Safe :=
  safe_skip.bind fun _ => (safe_mark _ _).bind fun _ => (safe_target scope).bind fun _ =>
    (safe_mark _ _).bind fun _ => safe_pure _

lemma safe_branch : (branch scope).Safe := by
  refine safe_skip.bind fun _ => (safe_mark _ _).bind fun _ => (safe_operand scope).bind fun c => ?_
  refine (safe_mark _ _).bind fun _ => (safe_mark _ _).bind fun _ => (safe_mark _ _).bind fun _ => ?_
  refine (safe_discard_expect _ _).bind fun _ => (safe_mark _ _).bind fun _ => ?_
  refine (safe_target scope).bind fun t => (safe_mark _ _).bind fun _ => ?_
  refine (safe_discard_expect _ _).bind fun _ => (safe_mark _ _).bind fun _ => ?_
  refine (safe_target scope).bind fun e => (safe_mark _ _).bind fun _ => (safe_mark _ _).bind fun _ => ?_
  exact safe_pure _

lemma safe_switchCase (cases : Cases) : (switchCase scope cases).Safe := by
  refine (safe_peek _).bind fun lx => ?_
  split
  · exact safe_skip.bind fun _ => safe_pure _
  · refine safe_skip.bind fun _ => (safe_mark _ _).bind fun _ => (safe_target scope).bind fun b => ?_
    exact (safe_mark _ _).bind fun _ => safe_pure _
  · refine safe_constant.bind fun c => (safe_mark _ _).bind fun _ => (safe_target scope).bind fun b => ?_
    refine (safe_nextIs _).bind fun isComma => ?_
    split
    · exact safe_skip.bind fun _ => safe_pure _
    · exact (safe_mark _ _).bind fun _ => safe_pure _

lemma shortens_switchCase : Shortens (switchCase scope) := by
  intro cases ts cases' ts' h
  rcases switchCase_eq_ok_iff.1 h with ⟨c, hc, -⟩ | ⟨e, -, -, he⟩
  · exact hc.length_lt (List.cons_ne_nil _ _)
  · cases he

lemma safe_switch : (switch scope).Safe := by
  refine safe_skip.bind fun _ => (safe_mark _ _).bind fun _ => safe_place.bind fun p => ?_
  refine (safe_mark _ _).bind fun _ => (safe_mark _ _).bind fun _ => (safe_mark _ _).bind fun _ => ?_
  refine (safe_loop (shortens_switchCase scope) (safe_switchCase scope) _).bind fun cases => ?_
  exact (safe_mark _ _).bind fun _ => safe_pure _

lemma safe_action (lx : Lexeme) : (action scope lx).Safe := by
  unfold action
  cases lx.token with
  | arg i => exact safe_place.bind fun p => safe_assignment scope p
  | var i => exact safe_place.bind fun p => safe_assignment scope p
  | temp i => exact safe_place.bind fun p => safe_assignment scope p
  | keyword k =>
    cases k with
    | drop => exact (safe_drop _).bind fun _ => safe_pure _
    | dropDeep => exact (safe_drop _).bind fun _ => safe_pure _
    | ret =>
      refine safe_skip.bind fun _ => (safe_nextIs _).bind fun isSemi => ?_
      split
      · exact safe_skip.bind fun _ => safe_pure _
      · exact safe_assignment scope _
    | goto => exact (safe_jump scope _).bind fun _ => safe_pure _
    | if_ => exact (safe_branch scope).bind fun _ => safe_pure _
    | switchInt => exact (safe_switch scope).bind fun _ => safe_pure _
    | diverge => exact safe_skip.bind fun _ => (safe_mark _ _).bind fun _ => safe_pure _
    | panic => exact (safe_jump scope _).bind fun _ => safe_pure _
    | _ => exact safe_reject not_internal_expected
  | _ => exact safe_reject not_internal_expected

end Code

section Heads

lemma safe_params : params.Safe := by
  refine (safe_mark _ _).bind fun _ => ?_
  refine safe_parenthesized (fun n ts n' ts' h => param_reads.length_le h) (fun n => ?_) 0
  refine (safe_next _).bind fun lx => ?_
  split
  · split
    · exact safe_pure _
    · exact safe_reject not_internal_expected
  · exact safe_reject not_internal_expected

lemma safe_decl (d : Draft) : (decl d).Safe := by
  refine (safe_nextIs _).bind fun isLet => ?_
  split
  · refine safe_skip.bind fun _ => (safe_next _).bind fun lx => ?_
    have hend (d : Draft) := (safe_mark .semi "`;` after declaration").bind fun _ =>
      safe_pure (.inl d : Draft ⊕ Draft)
    dsimp only
    split
    · split
      · exact (safe_pure _).bind hend
      · exact (safe_reject not_internal_expected).bind hend
    · split
      · exact (safe_pure _).bind hend
      · exact (safe_reject not_internal_expected).bind hend
    · exact (safe_reject not_internal_expected).bind hend
  · exact safe_pure _

lemma shortens_decl : Shortens decl := by
  intro d ts d' ts' h
  rcases decl_eq_ok_iff.1 h with ⟨t, d₁, ht, -⟩ | ⟨-, -, he⟩
  · exact ht.length_lt (List.cons_ne_nil _ _)
  · cases he

lemma safe_decls (d : Draft) : (loop decl d).Safe := safe_loop shortens_decl safe_decl d

lemma safe_attrArg (args : Array (String × String)) : (attrArg args).Safe := by
  refine (safe_ident _).bind fun key => (safe_mark _ _).bind fun _ => (safe_next _).bind fun lx => ?_
  split
  · split
    · exact safe_pure _
    · exact safe_reject nofun
  · exact safe_reject not_internal_expected

lemma safe_attr : attr.Safe := by
  refine (safe_mark _ _).bind fun _ => (safe_mark _ _).bind fun _ => (safe_ident _).bind fun name => ?_
  have hend (args : Array (String × String)) := (safe_mark .squareClose "`]` to close attribute").bind fun _ =>
    safe_pure (⟨name.1, args.toList⟩ : Attribute)
  refine (safe_nextIs _).bind fun isOpen => ?_
  dsimp only
  split
  · have hargs := safe_commaItems (fun args ts args' ts' h => attrArg_reads.length_le h) safe_attrArg #[]
    exact safe_skip.bind fun _ => hargs.bind hend
  · exact (safe_pure _).bind hend

lemma shortens_attrs : Shortens attrs := by
  intro as ts as' ts' h
  unfold attrs at h
  rw [nextIs_bind] at h
  split at h
  · obtain ⟨t, x, mid, ht, -, h⟩ := attr_reads.bind_eq_ok_iff.1 h
    obtain ⟨-, rfl⟩ := pure_eq_ok_iff.1 h
    exact ht.length_lt (List.cons_ne_nil _ _)
  · cases h

lemma safe_attrs (as : Array Attribute) : (loop attrs as).Safe := by
  refine safe_loop shortens_attrs (fun as => (safe_nextIs _).bind fun isHash => ?_) as
  split
  · exact safe_attr.bind fun a => safe_pure _
  · exact safe_pure _

end Heads

end Parser

end BlockIR
