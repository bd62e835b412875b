import BlockIR.Proofs.Grammar.Passes
import BlockIR.Proofs.Moved
import Mathlib.Data.List.Forall2
import Mathlib.Data.Sum.Basic

/-!
# Readers of tokens that are moved

A reader looks at tokens, and it hands on their places, but it never asks where they are. So where tokens are
moved it gives what it gave before, with the positions moved, or it stops at the same token for the same reason.
That it has come to the end says that it took all tokens, and it takes only those that are legible.
-/

namespace BlockIR

/-- A token that a reader can take: it is one of the language, and if it is a string its escapes are known. -/
def Token.isLegible : Token → Bool
  | unknown _ => false
  | str s => (Literal.str? s.toList).isSome
  | _ => true

/-- Tokens of one list stand for those of another, with their positions changed. What is left of the first list
has a property that it keeps where a legible token is taken. -/
structure Relocation where
  Moves : Lexeme → Lexeme → Prop
  pos : Pos → Pos
  Left : List Lexeme → Prop
  token_eq {lx lx' : Lexeme} : Moves lx lx' → lx'.token = lx.token
  pos_eq {lx lx' : Lexeme} : Moves lx lx' → lx'.pos = pos lx.pos
  left_tail {lx : Lexeme} {ts : List Lexeme} : Left (lx :: ts) → lx.token.isLegible → Left ts

namespace Relocation

/-- What is left of both lists. -/
structure Rests (R : Relocation) (ts ts' : List Lexeme) : Prop where
  left : R.Left ts
  moves : List.Forall₂ R.Moves ts ts'

/-- Two readers stop at the same token, or at the end, for the same reason. -/
inductive Stops (R : Relocation) : Stop → Stop → Prop
  | at {lx lx' : Lexeme} (h : R.Moves lx lx') (c : Complaint) : Stops R (.at lx c) (.at lx' c)
  | atEnd (h : R.Left []) (c : Complaint) : Stops R (.atEnd c) (.atEnd c)

variable {α α' β β' σ σ' : Type}

inductive Results (R : Relocation) (A : α → α' → Prop) :
    Except Stop (α × List Lexeme) → Except Stop (α' × List Lexeme) → Prop
  | ok {x : α} {x' : α'} {ts ts' : List Lexeme} (hx : A x x') (h : R.Rests ts ts') :
      Results R A (.ok (x, ts)) (.ok (x', ts'))
  | error {e e' : Stop} (h : R.Stops e e') : Results R A (.error e) (.error e')

def AgreeAt (R : Relocation) (A : α → α' → Prop) (p : Parser α) (ts : List Lexeme) (p' : Parser α')
    (ts' : List Lexeme) : Prop :=
  R.Results A (p ts) (p' ts')

/-- Readers that give the same of moved tokens. -/
def Agree (R : Relocation) (A : α → α' → Prop) (p : Parser α) (p' : Parser α') : Prop :=
  ∀ ts ts', R.Rests ts ts' → R.AgreeAt A p ts p' ts'

variable {R : Relocation} {A : α → α' → Prop} {B : β → β' → Prop} {lx lx' : Lexeme} {ts ts' : List Lexeme}

lemma Rests.tail (h : R.Rests (lx :: ts) (lx' :: ts')) (hlx : lx.token.isLegible) : R.Rests ts ts' :=
  ⟨R.left_tail h.left hlx, (List.forall₂_cons.1 h.moves).2⟩

section Rules

variable {p : Parser α} {p' : Parser α'} {k : α → Parser β} {k' : α' → Parser β'} {what : String}

lemma AgreeAt.bind (h : R.AgreeAt A p ts p' ts') (hk : ∀ x x', A x x' → R.Agree B (k x) (k' x')) :
    R.AgreeAt B (p >>= k) ts (p' >>= k') ts' := by
  have hp : (p >>= k) ts = (p ts >>= fun r => k r.1 r.2) := rfl
  have hp' : (p' >>= k') ts' = (p' ts' >>= fun r => k' r.1 r.2) := rfl
  unfold AgreeAt at h ⊢
  rw [hp, hp']
  generalize p ts = r at h
  generalize p' ts' = r' at h
  cases h with
  | ok hx hrests => exact hk _ _ hx _ _ hrests
  | error hstops => exact .error hstops

lemma Agree.bind (h : R.Agree A p p') (hk : ∀ x x', A x x' → R.Agree B (k x) (k' x')) :
    R.Agree B (p >>= k) (p' >>= k') :=
  fun ts ts' hrests => (h ts ts' hrests).bind hk

lemma Agree.then {p p' : Parser α} {k : α → Parser β} {k' : α → Parser β'} (h : R.Agree Eq p p')
    (hk : ∀ x, R.Agree B (k x) (k' x)) : R.Agree B (p >>= k) (p' >>= k') := by
  refine h.bind ?_
  rintro x _ rfl
  exact hk x

lemma agree_pure {x : α} {x' : α'} (hx : A x x') : R.Agree A (pure x) (pure x') :=
  fun _ _ hrests => .ok hx hrests

lemma agree_reject (h : R.Moves lx lx') (c : Complaint) : R.Agree A (Parser.reject lx c) (Parser.reject lx' c) :=
  fun _ _ _ => .error (.at h c)

lemma agree_discard (h : R.Agree A p p') : R.Agree Eq (discard p) (discard p') :=
  h.bind fun _ _ _ => agree_pure rfl

lemma agree_next {k : Lexeme → Parser β} {k' : Lexeme → Parser β'}
    (h : ∀ lx lx' ts ts', R.Moves lx lx' → R.Rests (lx :: ts) (lx' :: ts') → R.AgreeAt B (k lx) ts (k' lx') ts') :
    R.Agree B (Parser.next what >>= k) (Parser.next what >>= k') := by
  rintro ts ts' ⟨hleft, hmoves⟩
  cases hmoves with
  | nil => exact .error (.atEnd hleft _)
  | cons hlx hmoves => exact h _ _ _ _ hlx ⟨hleft, .cons hlx hmoves⟩

lemma agree_peek {k : Lexeme → Parser β} {k' : Lexeme → Parser β'}
    (h : ∀ lx lx' ts ts', R.Moves lx lx' → R.Rests (lx :: ts) (lx' :: ts') →
      R.AgreeAt B (k lx) (lx :: ts) (k' lx') (lx' :: ts')) :
    R.Agree B (Parser.peek what >>= k) (Parser.peek what >>= k') := by
  rintro ts ts' ⟨hleft, hmoves⟩
  cases hmoves with
  | nil => exact .error (.atEnd hleft _)
  | cons hlx hmoves => exact h _ _ _ _ hlx ⟨hleft, .cons hlx hmoves⟩

lemma Rests.head?_eq (h : R.Rests ts ts') : ts'.head?.map (·.token) = ts.head?.map (·.token) := by
  cases h.moves with
  | nil => rfl
  | cons hlx _ => exact congrArg some (R.token_eq hlx)

lemma Rests.drop (h : R.Rests ts ts') {t : Token} (hfront : ts.head?.map (·.token) = some t) (ht : t.isLegible) :
    R.Rests (ts.drop 1) (ts'.drop 1) := by
  cases hmoves : h.moves with
  | nil => cases hfront
  | cons hlx hmoves =>
    obtain rfl := Option.some.inj hfront
    exact h.tail ht

lemma agreeAt_skip {k : Unit → Parser α} {k' : Unit → Parser α'} (h : R.Agree A (k ()) (k' ()))
    (hrests : R.Rests (lx :: ts) (lx' :: ts')) (hlx : lx.token.isLegible) :
    R.AgreeAt A (Parser.skip >>= k) (lx :: ts) (Parser.skip >>= k') (lx' :: ts') :=
  h _ _ (hrests.tail hlx)

lemma agree_nextIs {t : Token} (ht : t.isLegible) {k : Unit → Parser α} {k' : Unit → Parser α'}
    {q : Parser α} {q' : Parser α'} (hk : R.Agree A (k ()) (k' ())) (hq : R.Agree A q q') :
    R.Agree A (Parser.nextIs t >>= fun b => if b then Parser.skip >>= k else q)
      (Parser.nextIs t >>= fun b => if b then Parser.skip >>= k' else q') := by
  intro ts ts' hrests
  unfold AgreeAt
  rw [Parser.nextIs_bind, Parser.nextIs_bind, hrests.head?_eq]
  split
  · next hfront => exact hk _ _ (hrests.drop (of_decide_eq_true hfront) ht)
  · exact hq ts ts' hrests

lemma agree_expect {t : Token} (ht : t.isLegible) (what : String) :
    R.Agree R.Moves (Parser.expect t what) (Parser.expect t what) := by
  refine agree_next fun lx lx' ts ts' hlx hrests => ?_
  rw [R.token_eq hlx]
  split
  · next htoken => exact .ok hlx (hrests.tail (htoken ▸ ht))
  · exact .error (.at hlx _)

lemma agree_expected {t : Token} (ht : t.isLegible) (what : String) :
    R.Agree Eq (discard (Parser.expect t what)) (discard (Parser.expect t what)) :=
  agree_discard (agree_expect ht what)

lemma agree_mark (m : Mark) (what : String) :
    R.Agree Eq (discard (Parser.expectMark m what)) (discard (Parser.expectMark m what)) :=
  agree_expected rfl what

lemma agree_ident (what : String) : R.Agree (fun x x' => x.1 = x'.1 ∧ R.Moves x.2 x'.2)
    (Parser.ident what) (Parser.ident what) := by
  refine agree_next fun lx lx' ts ts' hlx hrests => ?_
  rw [R.token_eq hlx]
  cases ht : lx.token with
  | ident name => exact .ok ⟨rfl, hlx⟩ (hrests.tail (by rw [ht]; rfl))
  | _ => exact .error (.at hlx _)

section Loops

variable {S : σ → σ' → Prop} {round : σ → Parser (σ ⊕ α)} {round' : σ' → Parser (σ' ⊕ α')} {s : σ} {s' : σ'}

/-- Loops agree if their rounds do. -/
lemma agree_loop (hshortens : Parser.Shortens round)
    (hround : ∀ s s', S s s' → R.Agree (Sum.LiftRel S A) (round s) (round' s')) (hs : S s s') :
    R.Agree A (Parser.loop round s) (Parser.loop round' s') := by
  have hrounds : ∀ fuel s s' ts ts', S s s' → R.Rests ts ts' → ts.length < fuel →
      R.Results A (Parser.rounds round fuel s ts) (Parser.rounds round' fuel s' ts') := by
    intro fuel
    induction fuel with
    | zero => exact fun _ _ ts _ _ _ hlength => absurd hlength (Nat.not_lt_zero _)
    | succ fuel ih =>
      intro s s' ts ts' hs hrests hlength
      have hr : R.Results _ _ _ := hround s s' hs ts ts' hrests
      have hshorter := hshortens s ts
      unfold Parser.rounds
      generalize round s ts = r at hr hshorter
      generalize round' s' ts' = r' at hr
      cases hr with
      | error hstops => exact .error hstops
      | ok hx hrests' =>
        cases hx with
        | inl hs' =>
          have hlt := hshorter _ _ rfl
          exact ih _ _ _ _ hs' hrests' (by omega)
        | inr hx => exact .ok hx hrests'
  intro ts ts' hrests
  have hlength := hrests.moves.length_eq
  unfold Parser.loop AgreeAt
  dsimp only
  rw [← hlength]
  exact hrounds _ s s' ts ts' hs hrests (Nat.lt_succ_self _)

lemma Agree.lift {p p' : Parser (σ ⊕ α)} (h : R.Agree Eq p p') : R.Agree (Sum.LiftRel Eq Eq) p p' := by
  intro ts ts' hrests
  have hr : R.Results _ _ _ := h ts ts' hrests
  unfold AgreeAt
  generalize p ts = r at hr
  generalize p' ts' = r' at hr
  cases hr with
  | error hstops => exact .error hstops
  | @ok x x' _ _ hx hrests' =>
    subst hx
    cases x with
    | inl s => exact .ok (.inl rfl) hrests'
    | inr x => exact .ok (.inr rfl) hrests'

lemma agree_loop_same {round : σ → Parser (σ ⊕ α)} (hshortens : Parser.Shortens round)
    (hround : ∀ s, R.Agree Eq (round s) (round s)) (s : σ) :
    R.Agree Eq (Parser.loop round s) (Parser.loop round s) := by
  refine agree_loop hshortens (fun s s' hs => ?_) rfl
  subst hs
  exact (hround s).lift

end Loops

end Rules

end Relocation

end BlockIR
