import BlockIR.Proofs.Machine.Framed
import Mathlib.Data.List.Forall2

/-!
# The ways of activations

An activation goes from block to block of its function. It begins at the first one, and it only ever goes on at
a block to which the one it was at can lead: a target of a jump, or, after a call, the target that it left with
the frame of its callee. Nothing goes on behind a return, and a run ends where it diverges or panics.
-/

namespace BlockIR

namespace Transfer

/-- Control can go on behind this in the same activation. -/
def GoesOn : Transfer → Prop
  | goto _ | branch _ _ _ | switch _ _ _ | call _ _ _ _ => True
  | ret | diverge | panic _ => False

/-- Control can go on at this block. -/
structure LeadsTo (t : Transfer) (next : BlockId) : Prop where
  mem : next ∈ t.successors
  goesOn : t.GoesOn

end Transfer

/-- The terminator of a block leads to another block. -/
def Body.LeadsTo (b : Body) (name next : BlockId) : Prop :=
  ∃ k, b.blocks.get? name = some k ∧ k.terminator.transfer.LeadsTo next

namespace Frame

/-- A frame has been at these blocks, the latest first: it is at the latest one, began at the first block of its
function, and each block leads to the one after it. -/
structure HasGone (m : Module) (fr : Frame) (way : List BlockId) : Prop where
  latest : way.head? = some fr.block
  first : way.getLast? = some .entry
  leads : ∃ function, m.get? fr.func = some function ∧
    way.IsChain fun next name => function.body.LeadsTo name next

/-- The block that a frame is at leads to a block. -/
def LeadsTo (m : Module) (fr : Frame) (next : BlockId) : Prop :=
  ∃ function, m.get? fr.func = some function ∧ function.body.LeadsTo fr.block next

lemma HasGone.cons {m : Module} {fr : Frame} {way : List BlockId} {next : BlockId} (h : fr.HasGone m way)
    (hnext : fr.LeadsTo m next) : ({ fr with block := next } : Frame).HasGone m (next :: way) := by
  obtain ⟨function, hfunction, hleads⟩ := hnext
  obtain ⟨function', hfunction', hchain⟩ := h.leads
  obtain rfl : function = function' := Option.some.inj (hfunction.symm.trans hfunction')
  have hlast : (next :: way).getLast? = way.getLast? := by
    cases hway : way with
    | nil => rw [hway] at h; cases h.latest
    | cons b way => exact List.getLast?_cons_cons
  refine ⟨rfl, hlast.trans h.first, function, hfunction, List.isChain_cons.2 ⟨fun b hb => ?_, hchain⟩⟩
  obtain rfl : fr.block = b := Option.some.inj (h.latest.symm.trans hb)
  exact hleads

end Frame

namespace Machine

/-- The block that the innermost frame is at, if there is one. -/
def here (s : Machine) : List BlockId := (s.calls.top?.map (·.block)).toList

/-- A frame that is at the start of a block has come to it. -/
def arrive (block : List BlockId) : Control → List (List BlockId) → List (List BlockId)
  | .start, way :: ways => (block ++ way) :: ways
  | _, ways => ways

/-- What becomes of the ways of frames, the innermost first, in a step from a depth to a point. A new frame begins
a way, and that of a frame that is gone ends. If the innermost frame was there before and is now at the start of
a block, this is the next block on its way. -/
def follow (depth : Nat) (c : Control) (s : Machine) (ways : List (List BlockId)) : List (List BlockId) :=
  if depth < s.depth then s.here :: ways else arrive s.here c (ways.drop (depth - s.depth))

/-- A call of a function comes to a point, and its activations have gone these ways. -/
inductive Goes (x : Setting) (f : FuncId) (args : List Value) (s : Machine) :
    Control → Machine → List (List BlockId) → Prop
  | enter {fr : Frame} (hnew : s.beginCall.newFrame x f args none = .ok fr) :
    Goes x f args s .start (s.beginCall.enter x fr args) (follow s.depth .start (s.beginCall.enter x fr args) [])
  | step {c₁ c₂ : Control} {s₁ s₂ : Machine} {ways : List (List BlockId)} (h : Goes x f args s c₁ s₁ ways)
    (hstep : s₁.step x s.depth c₁ = .running c₂ s₂) : Goes x f args s c₂ s₂ (follow s₁.depth c₂ s₂ ways)

section Points

variable {x : Setting} {f : FuncId} {args : List Value} {s s' : Machine} {c : Control}

lemma Goes.during {ways : List (List BlockId)} (h : s.Goes x f args c s' ways) : s.During x f args c s' := by
  induction h with
  | enter hnew => exact ⟨_, hnew, .refl _ _⟩
  | step _ hstep ih =>
    obtain ⟨fr, hnew, hreach⟩ := ih
    exact ⟨fr, hnew, hreach.tail hstep⟩

lemma Goes.run {c₁ : Control} {s₁ : Machine} {ways : List (List BlockId)} (h : s.Goes x f args c₁ s₁ ways)
    (hreach : Reaches x s.depth c₁ s₁ c s') : ∃ ways', s.Goes x f args c s' ways' := by
  induction hreach with
  | refl => exact ⟨ways, h⟩
  | tail _ hstep ih =>
    obtain ⟨ways', hways'⟩ := ih h
    exact ⟨_, hways'.step hstep⟩

lemma During.exists_goes (h : s.During x f args c s') : ∃ ways, s.Goes x f args c s' ways := by
  obtain ⟨fr, hnew, hreach⟩ := h
  exact (Goes.enter hnew).run hreach

end Points

section Follow

variable {s : Machine} {fr : Frame} {frames : List Frame} {depth : Nat} {way : List BlockId}
  {ways : List (List BlockId)}

lemma here_eq (hf : s.calls.frames = fr :: frames) : s.here = [fr.block] := by
  rw [here, CallStack.top?_eq hf]
  rfl

lemma follow_within (hdepth : s.depth = depth) (name : BlockId) (rest : List Statement) (t : Terminator) :
    follow depth (.within name rest t) s ways = ways := by
  rw [follow, if_neg (by omega), hdepth, Nat.sub_self, List.drop_zero]
  rfl

lemma follow_jump (hf : s.calls.frames = fr :: frames) (hdepth : s.depth = depth) :
    follow depth .start s (way :: ways) = (fr.block :: way) :: ways := by
  rw [follow, if_neg (by omega), hdepth, Nat.sub_self, List.drop_zero, arrive, here_eq hf, List.singleton_append]

lemma follow_enter (hf : s.calls.frames = fr :: frames) (hdepth : s.depth = depth + 1) :
    follow depth .start s ways = [fr.block] :: ways := by
  rw [follow, if_pos (by omega), here_eq hf]

lemma follow_leave (hf : s.calls.frames = fr :: frames) (hdepth : depth = s.depth + 1) (gone : List BlockId) :
    follow depth .start s (gone :: way :: ways) = (fr.block :: way) :: ways := by
  have hone : depth - s.depth = 1 := by omega
  rw [follow, if_neg (by omega), hone, List.drop_one, List.tail_cons, arrive, here_eq hf, List.singleton_append]

end Follow

/-- When a frame returns, the frame under it goes on at a block to which its own leads. -/
def Awaits (m : Module) (fr caller : Frame) : Prop :=
  ∀ i target, fr.returnTo = some (i, target) → caller.LeadsTo m target

/-- The code that is left of a block ends with the terminator of the block that the frame is at. -/
def EndsBlock (m : Module) (fr : Frame) : Control → Prop
  | .start => True
  | .within _ _ t => ∃ function k, m.get? fr.func = some function ∧
      function.body.blocks.get? fr.block = some k ∧ k.terminator = t

/-- The frames of a run, above those that were there before, have gone these ways and can go on. -/
structure Tracks (m : Module) (below : List Frame) (c : Control) (s : Machine) (fr : Frame)
    (callers : List Frame) (ways : List (List BlockId)) : Prop where
  frames : s.calls.frames = fr :: callers ++ below
  ways : List.Forall₂ (Frame.HasGone m) (fr :: callers) ways
  returns : (fr :: callers).IsChain (Awaits m)
  code : EndsBlock m fr c

section Moves

variable {x : Setting} {s : Machine}

lemma hasGone_of_newFrame {f : FuncId} {args : List Value} {returnTo : Option (Nat × BlockId)} {fr : Frame}
    (h : s.newFrame x f args returnTo = .ok fr) :
    fr.HasGone x.module [fr.block] ∧ fr.returnTo = returnTo := by
  obtain ⟨function, hfunction, -, -, rfl⟩ := newFrame_eq_ok h
  exact ⟨⟨rfl, rfl, function, hfunction, .singleton _⟩, rfl⟩

/-- Where a move goes on, at once or when the frame that it pushes returns, its terminator leads to. -/
def MoveLeads (m : Module) (t : Transfer) : Move → Prop
  | .jump target => t.LeadsTo target
  | .enter fr _ => fr.HasGone m [fr.block] ∧ ∀ i target, fr.returnTo = some (i, target) → t.LeadsTo target
  | .leave _ => True

lemma moveLeads_of_move {t : Transfer} {mv : Move} (h : s.move x t = .ok mv) : MoveLeads x.module t mv := by
  cases t with
  | ret =>
    obtain ⟨v, -, h⟩ := exists_of_bind_eq_ok h
    cases h
    trivial
  | goto b =>
    cases h
    exact ⟨List.mem_cons_self, trivial⟩
  | branch c onTrue onFalse =>
    obtain ⟨b, hb, h⟩ := exists_of_bind_eq_ok h
    cases h
    exact ⟨mem_of_branchTarget hb, trivial⟩
  | switch p cases targets =>
    obtain ⟨b, hb, h⟩ := exists_of_bind_eq_ok h
    cases h
    exact ⟨mem_of_switchTarget hb, trivial⟩
  | call p callee args target =>
    obtain ⟨i, f, vs, fr, -, hnew, rfl⟩ := newFrame_of_callMove h
    obtain ⟨hgone, hreturn⟩ := hasGone_of_newFrame hnew
    refine ⟨hgone, fun j target' hj => ?_⟩
    obtain ⟨-, rfl⟩ := Prod.mk.inj (Option.some.inj (hreturn.symm.trans hj))
    exact ⟨List.mem_cons_self, trivial⟩
  | diverge => cases h
  | panic b => cases h

lemma EndsBlock.leadsTo {m : Module} {fr : Frame} {name next : BlockId} {rest : List Statement} {t : Terminator}
    (h : EndsBlock m fr (.within name rest t)) (hnext : t.transfer.LeadsTo next) : fr.LeadsTo m next := by
  obtain ⟨function, k, hfunction, hk, rfl⟩ := h
  exact ⟨function, hfunction, k, hk, hnext⟩

lemma endsBlock_of_currentBlock {fr : Frame} {frames : List Frame} (hf : s.calls.frames = fr :: frames)
    {name : BlockId} {k : Block} (h : s.currentBlock x = .ok (name, k)) :
    EndsBlock x.module fr (.within name k.statements k.terminator) := by
  cases hfunction : x.module.get? fr.func with
  | none =>
    unfold currentBlock at h
    simp only [CallStack.top?_eq hf, hfunction, reduceCtorEq] at h
  | some function =>
    rw [currentBlock_eq (CallStack.top?_eq hf) hfunction] at h
    split at h
    · cases h
    · next k hk =>
      cases h
      exact ⟨function, k, hfunction, hk, rfl⟩

end Moves

namespace Tracks

variable {m : Module} {below : List Frame} {c : Control} {s : Machine} {fr : Frame} {callers : List Frame}
  {ways : List (List BlockId)}

lemma depth_eq (h : Tracks m below c s fr callers ways) : s.depth = callers.length + below.length + 1 := by
  rw [depth_eq_length, h.frames, List.length_append, List.length_cons]
  omega

lemma isChain_jump (h : (fr :: callers).IsChain (Awaits m)) (target : BlockId) :
    ({ fr with block := target } :: callers).IsChain (Awaits m) := by
  rw [List.isChain_cons] at h ⊢
  exact h

lemma jump (h : Tracks m below c s fr callers ways) {s' : Machine} {target : BlockId}
    (hs' : s'.calls = s.calls.jump target) (htarget : fr.LeadsTo m target) :
    Tracks m below .start s' { fr with block := target } callers (follow s.depth .start s' ways) := by
  have hframes : s'.calls.frames = { fr with block := target } :: (callers ++ below) := by
    rw [hs']
    exact CallStack.frames_jump target h.frames
  have hdepth : s'.depth = s.depth := by
    rw [h.depth_eq, depth_eq_length, hframes, List.length_cons, List.length_append]
  obtain ⟨way, ways', hway, hways, rfl⟩ := List.forall₂_cons_left_iff.1 h.ways
  rw [follow_jump hframes hdepth]
  exact ⟨hframes, .cons (hway.cons htarget) hways, isChain_jump h.returns target, trivial⟩

lemma enter (h : Tracks m below c s fr callers ways) {s' : Machine} {fr' : Frame}
    (hs' : s'.calls = s.calls.push fr') (hgone : fr'.HasGone m [fr'.block]) (hawaits : Awaits m fr' fr) :
    Tracks m below .start s' fr' (fr :: callers) (follow s.depth .start s' ways) := by
  have hframes : s'.calls.frames = fr' :: (fr :: callers ++ below) := by
    rw [hs', CallStack.frames_push, h.frames]
  have hdepth : s'.depth = s.depth + 1 := by
    rw [depth_eq_length, depth_eq_length, hframes, h.frames, List.length_cons]
  rw [follow_enter hframes hdepth]
  exact ⟨hframes, .cons hgone h.ways, List.isChain_cons_cons.2 ⟨hawaits, h.returns⟩, trivial⟩

lemma return_ (h : Tracks m below c s fr callers ways) {x : Setting} {v : Value} {c' : Control} {s' : Machine}
    (hstep : s.return_ x below.length v = .running c' s') :
    ∃ fr' callers', Tracks m below c' s' fr' callers' (follow s.depth c' s' ways) := by
  have htop : s.calls.top? = some fr := CallStack.top?_eq h.frames
  have hpop : (s.leave x fr).calls.frames = callers ++ below := by
    rw [leave_calls, CallStack.frames_pop, h.frames]
    rfl
  unfold Machine.return_ at hstep
  simp only [htop] at hstep
  split at hstep
  · next i target hreturn =>
    split_ifs at hstep with hbase
    cases hstep
    rw [depth_eq_length, hpop, List.length_append] at hbase
    cases callers with
    | nil => exact absurd hbase (by rw [List.length_nil]; omega)
    | cons caller callers =>
      have hawaits := (List.isChain_cons_cons.1 h.returns).1 i target hreturn
      have hframes : (((s.leave x fr).writeSlot i v).jump target).calls.frames =
          { caller with block := target } :: (callers ++ below) := CallStack.frames_jump target hpop
      have hdepth : s.depth = (((s.leave x fr).writeSlot i v).jump target).depth + 1 := by
        rw [h.depth_eq, depth_eq_length, hframes, List.length_cons, List.length_cons, List.length_append]
        omega
      obtain ⟨gone, ways', -, hways, rfl⟩ := List.forall₂_cons_left_iff.1 h.ways
      obtain ⟨way, ways'', hway, hways'', rfl⟩ := List.forall₂_cons_left_iff.1 hways
      refine ⟨{ caller with block := target }, callers, ?_⟩
      rw [follow_leave hframes hdepth]
      exact ⟨hframes, .cons (hway.cons hawaits) hways'', isChain_jump (List.isChain_cons_cons.1 h.returns).2 target,
        trivial⟩
  · cases hstep

lemma of_calls_eq (h : Tracks m below c s fr callers ways) {s' : Machine} (hs' : s'.calls = s.calls)
    {c' : Control} (hcode : EndsBlock m fr c') : Tracks m below c' s' fr callers ways :=
  ⟨hs' ▸ h.frames, h.ways, h.returns, hcode⟩

section Steps

variable {x : Setting} {c' : Control} {s' : Machine} {name : BlockId} {rest : List Statement} {t : Terminator}

lemma apply (h : Tracks x.module below (.within name rest t) s fr callers ways) {mv : Move}
    (hmv : MoveLeads x.module t.transfer mv) (hstep : s.apply x below.length mv = .running c' s') :
    ∃ fr' callers', Tracks x.module below c' s' fr' callers' (follow s.depth c' s' ways) := by
  cases mv with
  | jump target =>
    cases hstep
    exact ⟨_, _, h.jump rfl (h.code.leadsTo hmv)⟩
  | enter fr' vs =>
    cases hstep
    obtain ⟨hgone, hreturn⟩ := hmv
    exact ⟨_, _, h.enter rfl hgone fun i target hi => h.code.leadsTo (hreturn i target hi)⟩
  | leave v => exact h.return_ hstep

lemma step_within (h : Tracks x.module below (.within name rest t) s fr callers ways)
    (hstep : s.step x below.length (.within name rest t) = .running c' s') :
    ∃ fr' callers', Tracks x.module below c' s' fr' callers' (follow s.depth c' s' ways) := by
  cases hlimit : x.config.exceeded? (s.steps + 1) with
  | some limit =>
    rw [step_of_exceeded hlimit] at hstep
    cases hstep
  | none =>
    cases rest with
    | cons st rest =>
      have hkept : ∀ s' : Machine, s'.calls = s.calls → ∃ fr' callers',
          Tracks x.module below (.within name rest t) s' fr' callers' (follow s.depth (.within name rest t) s' ways) := by
        intro s' hs'
        have hdepth : s'.depth = s.depth := congrArg CallStack.depth hs'
        rw [follow_within hdepth]
        exact ⟨fr, callers, h.of_calls_eq hs' h.code⟩
      rw [step_cons hlimit] at hstep
      split at hstep
      · cases hstep
      · cases hstep
        exact hkept _ rfl
      · cases hstep
        exact hkept _ rfl
    | nil =>
      rw [step_nil hlimit] at hstep
      split at hstep
      · cases hstep
      · next mv hmv =>
        have hcounted : Tracks x.module below (.within name [] t) (s.counted name (.inr t.transfer)) fr callers ways :=
          ⟨h.frames, h.ways, h.returns, h.code⟩
        exact hcounted.apply (moveLeads_of_move hmv) hstep

/-- A step takes the ways on along the blocks. -/
lemma step (h : Tracks x.module below c s fr callers ways) (hstep : s.step x below.length c = .running c' s') :
    ∃ fr' callers', Tracks x.module below c' s' fr' callers' (follow s.depth c' s' ways) := by
  cases c with
  | within name rest t => exact h.step_within hstep
  | start =>
    cases hblock : s.currentBlock x with
    | error e =>
      rw [step_start_of_error hblock] at hstep
      cases hstep
    | ok b =>
      obtain ⟨name, k⟩ := b
      rw [step_start_of_ok hblock] at hstep
      have hwithin : Tracks x.module below (.within name k.statements k.terminator) s fr callers ways :=
        h.of_calls_eq rfl (endsBlock_of_currentBlock h.frames hblock)
      exact hwithin.step_within hstep

end Steps

end Tracks

/-- At every point of a call its frames have gone the ways that are followed. -/
lemma Goes.exists_tracks {x : Setting} {f : FuncId} {args : List Value} {s s' : Machine} {c : Control}
    {ways : List (List BlockId)} (h : s.Goes x f args c s' ways) :
    ∃ fr callers, Tracks x.module s.calls.frames c s' fr callers ways := by
  induction h with
  | @enter fr hnew =>
    obtain ⟨hgone, -⟩ := hasGone_of_newFrame hnew
    have hframes : (s.beginCall.enter x fr args).calls.frames = fr :: s.calls.frames := by
      rw [enter_calls, CallStack.frames_push, beginCall_calls]
    have hdepth : (s.beginCall.enter x fr args).depth = s.depth + 1 := by
      rw [depth_eq_length, hframes, depth_eq_length, List.length_cons]
    rw [follow_enter hframes hdepth]
    exact ⟨fr, [], hframes, .cons hgone .nil, .singleton _, trivial⟩
  | step _ hstep ih =>
    obtain ⟨fr, callers, htracks⟩ := ih
    rw [depth_eq_length] at hstep
    exact htracks.step hstep

/-- The activations of a call go some ways up to each point of its run, and these are the only ways that they go:
each frame that the call has on the stack began at the first block of its function, and has since gone from one block
to the next only where the terminator of the one has the other among its successors and is not one that ends
an activation. -/
theorem control_keeps_to_successors (x : Setting) (f : FuncId) (args : List Value) (s : Machine) (c : Control)
    (s' : Machine) :
    (s.During x f args c s' ↔ ∃ ways, s.Goes x f args c s' ways) ∧
      ∀ ways, s.Goes x f args c s' ways →
        ∃ own, s'.calls.frames = own ++ s.calls.frames ∧ List.Forall₂ (Frame.HasGone x.module) own ways := by
  refine ⟨⟨During.exists_goes, fun ⟨_, hways⟩ => hways.during⟩, fun ways hways => ?_⟩
  obtain ⟨fr, callers, htracks⟩ := hways.exists_tracks
  exact ⟨fr :: callers, htracks.frames, htracks.ways⟩

end Machine

/-- A function that calls another one, goes on behind the call and comes back to the call. -/
def Module.comingBack : Module where
  name := "functions"
  functions := .ofList [
    ⟨"again", [], ⟨0, 0, 0, .ofList [⟨[], ⟨.call .result (.func ⟨1⟩) [] ⟨2⟩, .none⟩⟩, ⟨[], ⟨.panic ⟨0⟩, .none⟩⟩,
      ⟨[⟨.drop .free .result, .none⟩], ⟨.goto ⟨0⟩, .none⟩⟩]⟩⟩,
    ⟨"nothing", [], ⟨0, 0, 0, .ofList [⟨[], ⟨.ret, .none⟩⟩]⟩⟩]
  names := .empty

theorem Machine.comingBack_keeps_to_successors :
    let x : Setting := ⟨Module.comingBack, .default⟩
    ∃ c s', fresh.During x ⟨0⟩ [] c s' ∧
      ∃ fr fr', s'.calls.frames = [fr', fr] ∧ fr'.HasGone x.module [⟨0⟩] ∧ fr.HasGone x.module [⟨0⟩, ⟨2⟩, ⟨0⟩] := by
  intro x
  have hgoes : ∃ c s' ways, fresh.Goes x ⟨0⟩ [] c s' ways ∧ ways = [[⟨0⟩], [⟨0⟩, ⟨2⟩, ⟨0⟩]] := by
    have henter : fresh.Goes x ⟨0⟩ [] _ _ _ := .enter rfl
    exact ⟨_, _, _, ((((henter.step rfl).step rfl).step rfl).step rfl).step rfl, rfl⟩
  obtain ⟨c, s', ways, hgoes, rfl⟩ := hgoes
  obtain ⟨hduring, hways⟩ := control_keeps_to_successors x ⟨0⟩ [] fresh c s'
  obtain ⟨own, hframes, hgone⟩ := hways _ hgoes
  obtain ⟨fr', rest, hfr', hrest, rfl⟩ := List.forall₂_cons_right_iff.1 hgone
  obtain ⟨fr, frs, hfr, hnil, rfl⟩ := List.forall₂_cons_right_iff.1 hrest
  obtain rfl := List.forall₂_nil_right_iff.1 hnil
  exact ⟨c, s', hduring.2 ⟨_, hgoes⟩, fr, fr', hframes, hfr', hfr⟩

end BlockIR
