import BlockIR.Proofs.Machine.Callers

/-!
# Frames tile the value stack

However a machine came about, each of its frames begins where the one below ends, and the value stack ends
where the innermost one does. So every slot belongs to one place of one frame. The same holds at every
point of a run.
-/

namespace BlockIR

lemma Body.exists_rank {b : Body} {n : Nat} (h : n < b.frameSize) : ∃ p, b.declares p ∧ b.rank p = n := by
  have hlt : ∀ (i : Nat) (k : UInt32), i < k.toNat → UInt32.ofNat i < k ∧ (UInt32.ofNat i).toNat = i := by
    intro i k hi
    have hnat : (UInt32.ofNat i).toNat = i := UInt32.toNat_ofNat_of_lt' (Nat.lt_trans hi k.toNat_lt)
    exact ⟨UInt32.lt_iff_toNat_lt.2 (hnat.symm ▸ hi), hnat⟩
  rw [frameSize] at h
  by_cases hresult : n = 0
  · exact ⟨.result, rfl, hresult.symm⟩
  by_cases hargs : n - 1 < b.args.toNat
  · obtain ⟨hi, hnat⟩ := hlt _ _ hargs
    refine ⟨.arg (.ofNat (n - 1)), decide_eq_true hi, ?_⟩
    rw [rank, hnat]
    omega
  by_cases hvars : n - 1 - b.args.toNat < b.vars.toNat
  · obtain ⟨hi, hnat⟩ := hlt _ _ hvars
    refine ⟨.var (.ofNat (n - 1 - b.args.toNat)), decide_eq_true hi, ?_⟩
    rw [rank, hnat]
    omega
  · obtain ⟨hi, hnat⟩ := hlt (n - 1 - b.args.toNat - b.vars.toNat) b.temps (by omega)
    refine ⟨.temp (.ofNat (n - 1 - b.args.toNat - b.vars.toNat)), decide_eq_true hi, ?_⟩
    rw [rank, hnat]
    omega

namespace Frame.Fits

variable {fr : Frame} {b : Body} {p q : Place} {i : Nat}

lemma isSome_slot? (h : fr.Fits b) (p : Place) : (fr.slot? p).isSome = b.declares p := by
  rw [h.slot?_eq]
  cases b.declares p <;> rfl

lemma slot?_eq_some_iff (h : fr.Fits b) :
    fr.slot? p = some i ↔ b.declares p ∧ fr.offset + b.rank p = i := by
  rw [h.slot?_eq, Option.ite_some_none_eq_some]

lemma slot_bounds (h : fr.Fits b) (hp : fr.slot? p = some i) : fr.offset ≤ i ∧ i < fr.offset + fr.size := by
  obtain ⟨hdeclared, rfl⟩ := h.slot?_eq_some_iff.1 hp
  have hrank := Body.rank_lt_frameSize hdeclared
  rw [h.size_eq]
  omega

lemma slot?_injective (h : fr.Fits b) (hp : fr.slot? p = some i) (hq : fr.slot? q = some i) : p = q := by
  obtain ⟨hdp, hip⟩ := h.slot?_eq_some_iff.1 hp
  obtain ⟨hdq, hiq⟩ := h.slot?_eq_some_iff.1 hq
  exact Body.rank_injective hdp hdq (by omega)

lemma exists_slot? (h : fr.Fits b) (hlow : fr.offset ≤ i) (hhigh : i < fr.offset + fr.size) :
    ∃ p, fr.slot? p = some i := by
  rw [h.size_eq] at hhigh
  obtain ⟨p, hdeclared, hrank⟩ := Body.exists_rank (b := b) (n := i - fr.offset) (by omega)
  exact ⟨p, h.slot?_eq_some_iff.2 ⟨hdeclared, by omega⟩⟩

end Frame.Fits

/-- The frames, of which the innermost comes first, fill a value stack of this size one after another: the
outermost begins at slot 0, and each other where the one below it ends. -/
def Tiled : List Frame → Nat → Prop
  | [], size => size = 0
  | fr :: callers, size => fr.offset + fr.size = size ∧ Tiled callers fr.offset

namespace Tiled

variable {frames : List Frame} {size k l i : Nat} {fr fr' : Frame}

lemma le_size (h : Tiled frames size) (hk : frames[k]? = some fr) : fr.offset + fr.size ≤ size := by
  induction frames generalizing size k with
  | nil => cases hk
  | cons top callers ih =>
    obtain ⟨hsize, hcallers⟩ := h
    cases k with
    | zero =>
      cases hk
      exact Nat.le_of_eq hsize
    | succ k =>
      have hle := ih hcallers hk
      omega

lemma exists_frame (h : Tiled frames size) (hi : i < size) :
    ∃ (k : Nat) (fr : Frame), frames[k]? = some fr ∧ fr.offset ≤ i ∧ i < fr.offset + fr.size := by
  induction frames generalizing size with
  | nil =>
    rw [Tiled] at h
    omega
  | cons top callers ih =>
    obtain ⟨hsize, hcallers⟩ := h
    by_cases htop : top.offset ≤ i
    · exact ⟨0, top, rfl, htop, by omega⟩
    · obtain ⟨k, fr, hk, hbounds⟩ := ih hcallers (Nat.lt_of_not_le htop)
      exact ⟨k + 1, fr, hk, hbounds⟩

lemma frame_unique (h : Tiled frames size) (hk : frames[k]? = some fr) (hl : frames[l]? = some fr')
    (hfr : fr.offset ≤ i ∧ i < fr.offset + fr.size) (hfr' : fr'.offset ≤ i ∧ i < fr'.offset + fr'.size) :
    k = l := by
  induction frames generalizing size k l with
  | nil => cases hk
  | cons top callers ih =>
    obtain ⟨-, hcallers⟩ := h
    cases k with
    | zero =>
      cases l with
      | zero => rfl
      | succ l =>
        have hle := hcallers.le_size hl
        cases hk
        omega
    | succ k =>
      cases l with
      | zero =>
        have hle := hcallers.le_size hk
        cases hl
        omega
      | succ l => exact congrArg (· + 1) (ih hcallers hk hl)

end Tiled

namespace Machine

/-- A place of the frame at a position of the call stack has this slot. -/
def HasSlot (s : Machine) (k : Nat) (p : Place) (i : Nat) : Prop :=
  ∃ fr, s.calls.frames[k]? = some fr ∧ fr.slot? p = some i

/-- The frames tile the value stack, are frames of functions, and are not too many. -/
structure Laid (x : Setting) (s : Machine) : Prop where
  tiled : Tiled s.calls.frames s.values.size
  frames : ∀ fr ∈ s.calls.frames, ∃ function, x.module.get? fr.func = some function ∧ fr.Fits function.body
  depth : s.depth ≤ x.config.maxDepth

namespace Laid

variable {x : Setting} {s s' : Machine} {fr : Frame}

lemma of_sameStacks (h : s.Laid x) (hs : SameStacks s s') : s'.Laid x := by
  refine ⟨?_, ?_, ?_⟩
  · rw [hs.calls, hs.values]
    exact h.tiled
  · rw [hs.calls]
    exact h.frames
  · rw [depth_eq_length, hs.calls, ← depth_eq_length]
    exact h.depth

lemma writeSlot (h : s.Laid x) (i : Nat) (v : Value) : (s.writeSlot i v).Laid x := by
  refine ⟨?_, h.frames, h.depth⟩
  rw [writeSlot_values, Array.size_setIfInBounds]
  exact h.tiled

lemma jump (h : s.Laid x) (target : BlockId) : (s.jump target).Laid x := by
  have htiled := h.tiled
  have hframes := h.frames
  have hdepth := h.depth
  rw [depth_eq_length] at hdepth
  cases hf : s.calls.frames with
  | nil =>
    have hsame : s.calls.jump target = s.calls := by
      rcases hc : s.calls with ⟨_ | ⟨fr, frs⟩, n, hn⟩
      · rfl
      · rw [hc] at hf
        cases hf
    exact h.of_sameStacks ⟨hsame, rfl⟩
  | cons fr callers =>
    have hjump := CallStack.frames_jump target hf
    rw [hf] at htiled hframes hdepth
    rw [List.forall_mem_cons] at hframes
    obtain ⟨⟨function, hfunction, hfits⟩, hcallers⟩ := hframes
    refine ⟨?_, ?_, ?_⟩
    · rw [jump_calls, hjump]
      exact htiled
    · rw [jump_calls, hjump, List.forall_mem_cons]
      exact ⟨⟨function, hfunction, hfits.jump target⟩, hcallers⟩
    · rw [depth_eq_length, jump_calls, hjump]
      exact hdepth

lemma enter (h : s.Laid x) {f : FuncId} {args : List Value} {returnTo : Option (Nat × BlockId)}
    (hnew : s.newFrame x f args returnTo = .ok fr) : (s.enter x fr args).Laid x := by
  obtain ⟨function, hfunction, hargs, hdepth, rfl⟩ := newFrame_eq_ok hnew
  have hfits := Frame.fits_ofBody f function.body s.values.size returnTo
  have hsize : (s.values ++ (Frame.ofBody f function.body s.values.size returnTo).initialSlots args).size =
      s.values.size + (Frame.ofBody f function.body s.values.size returnTo).size := by
    rw [← Array.length_toList, Array.toList_appendList, List.length_append, Array.length_toList,
      Frame.length_initialSlots _ (hargs.trans hfits.args.symm)]
  refine ⟨⟨?_, h.tiled⟩, ?_, ?_⟩
  · exact hsize.symm
  · rw [enter_calls, CallStack.frames_push, List.forall_mem_cons]
    exact ⟨⟨function, hfunction, hfits⟩, h.frames⟩
  · exact hdepth

lemma leave (h : s.Laid x) (htop : s.calls.top? = some fr) : (s.leave x fr).Laid x := by
  obtain ⟨callers, hf⟩ : ∃ callers, s.calls.frames = fr :: callers := List.head?_eq_some_iff.1 htop
  have htiled := h.tiled
  have hframes := h.frames
  have hdepth := h.depth
  rw [hf] at htiled hframes
  rw [depth_eq_length, hf, List.length_cons] at hdepth
  obtain ⟨hsize, hcallers⟩ := htiled
  have hpop : (s.leave x fr).calls.frames = callers := by
    rw [leave_calls, CallStack.frames_pop, hf, List.tail_cons]
  refine ⟨?_, ?_, ?_⟩
  · have hmin : min s.values.size fr.offset = fr.offset := by omega
    rw [hpop, leave_values, Array.size_shrink, Nat.min_comm, hmin]
    exact hcallers
  · rw [hpop]
    exact (List.forall_mem_cons.1 hframes).2
  · rw [depth_eq_length, hpop]
    exact Nat.le_of_succ_le hdepth

/-- A step keeps the frames laid out. -/
lemma step (h : s.Laid x) (base : Nat) (c : Control) :
    match s.step x base c with
    | .running _ s' | .returned _ s' | .failed _ s' => s'.Laid x := by
  have heffect := effect_step x base s c
  generalize s.step x base c = r at heffect
  cases heffect with
  | keep hs => exact h.of_sameStacks hs
  | write _ hs => exact (h.writeSlot _ _).of_sameStacks hs
  | jump hs => exact (h.jump _).of_sameStacks hs
  | enter _ hnew hs => exact (h.enter hnew).of_sameStacks hs
  | goOn htop _ _ hs => exact (((h.leave htop).writeSlot _ _).jump _).of_sameStacks hs
  | finish htop _ hs => exact (h.leave htop).of_sameStacks hs
  | fail hs => exact h.of_sameStacks hs

lemma of_reaches (h : s.Laid x) {base : Nat} {c c' : Control} (hr : Reaches x base c s c' s') :
    s'.Laid x := by
  induction hr with
  | refl => exact h
  | @tail c₁ _ _ _ _ _ hstep ih =>
    have hnext := (ih h).step base c₁
    rw [hstep] at hnext
    exact hnext

lemma of_during (h : s.Laid x) {f : FuncId} {args : List Value} {c : Control}
    (hd : s.During x f args c s') : s'.Laid x := by
  obtain ⟨fr, hnew, hreach⟩ := hd
  exact ((h.of_sameStacks (sameStacks_beginCall s)).enter hnew).of_reaches hreach

lemma of_reachable (h : Reachable x s) : s.Laid x := by
  induction h with
  | new log => exact ⟨rfl, List.forall_mem_nil _, Nat.zero_le _⟩
  | @push s s' f args returnTo r _ hpush ih =>
    rw [tryPush_eq, push] at hpush
    cases hnew : s.newFrame x f args returnTo with
    | error e =>
      rw [hnew] at hpush
      cases hpush
      exact ih
    | ok fr =>
      rw [hnew] at hpush
      cases hpush
      exact ih.enter hnew
  | @pop s _ ih =>
    rw [tryPop_eq, pop]
    cases htop : s.calls.top? with
    | none => exact ih
    | some fr => exact ih.leave htop
  | write _ i v ih => exact ih.writeSlot i v
  | call _ f args ih => exact ih.of_sameStacks (sameStacks_call x f args _)
  | callNamed _ name args ih => exact ih.of_sameStacks (sameStacks_callNamed x name args _)

/-- Every slot is that of one place of one frame. -/
lemma existsUnique_hasSlot (h : s.Laid x) {i : Nat} (hi : i < s.values.size) :
    ∃! q : Nat × Place, s.HasSlot q.1 q.2 i := by
  have fits_of : ∀ {k : Nat} {fr : Frame}, s.calls.frames[k]? = some fr → ∃ b, fr.Fits b := by
    intro k fr hk
    obtain ⟨function, -, hfits⟩ := h.frames fr (List.mem_of_getElem? hk)
    exact ⟨function.body, hfits⟩
  obtain ⟨k, fr, hk, hlow, hhigh⟩ := h.tiled.exists_frame hi
  obtain ⟨b, hfits⟩ := fits_of hk
  obtain ⟨p, hp⟩ := hfits.exists_slot? hlow hhigh
  refine ⟨(k, p), ⟨fr, hk, hp⟩, ?_⟩
  rintro ⟨l, q⟩ ⟨fr', hl, hq⟩
  obtain ⟨b', hfits'⟩ := fits_of hl
  obtain rfl := h.tiled.frame_unique hl hk (hfits'.slot_bounds hq) ⟨hlow, hhigh⟩
  obtain rfl := Option.some.inj (hl.symm.trans hk)
  exact Prod.ext rfl (hfits.slot?_injective hq hp)

lemma lt_size_of_hasSlot (h : s.Laid x) {k i : Nat} {p : Place} (hp : s.HasSlot k p i) :
    i < s.values.size := by
  obtain ⟨fr, hk, hi⟩ := hp
  obtain ⟨function, -, hfits⟩ := h.frames fr (List.mem_of_getElem? hk)
  exact Nat.lt_of_lt_of_le (hfits.slot_bounds hi).2 (h.tiled.le_size hk)

end Laid

/-- How the stacks of a machine lie: the frames tile the value stack, the slots of each frame are those of the
places that its function declares, and no slot is that of two places or of none. -/
structure Tidy (x : Setting) (s : Machine) : Prop where
  tiled : Tiled s.calls.frames s.values.size
  frames : ∀ fr ∈ s.calls.frames, ∃ function, x.module.get? fr.func = some function ∧
    fr.size = function.body.frameSize ∧ ∀ p, (fr.slot? p).isSome = function.body.declares p
  lt_size : ∀ k p i, s.HasSlot k p i → i < s.values.size
  one_to_one : ∀ i < s.values.size, ∃! q : Nat × Place, s.HasSlot q.1 q.2 i
  depth_le : s.depth ≤ x.config.maxDepth

lemma Laid.tidy {x : Setting} {s : Machine} (h : s.Laid x) : s.Tidy x where
  tiled := h.tiled
  frames := by
    intro fr hfr
    obtain ⟨function, hfunction, hfits⟩ := h.frames fr hfr
    exact ⟨function, hfunction, hfits.size_eq, hfits.isSome_slot?⟩
  lt_size _ _ _ := h.lt_size_of_hasSlot
  one_to_one _ := h.existsUnique_hasSlot
  depth_le := h.depth

/-- The stacks lie in order after any operations, and at every point of a call. A push always finds room for
its arguments. -/
theorem tidy_of_reachable {x : Setting} {s : Machine} (h : Reachable x s) :
    (s.Tidy x ∧ ∀ f args returnTo, (s.tryPush x f args returnTo).isSome) ∧
    ∀ f args c s', s.During x f args c s' →
      s'.Tidy x ∧ ∀ g vs returnTo, (s'.tryPush x g vs returnTo).isSome := by
  have room (s : Machine) (f : FuncId) (args : List Value) (returnTo : Option (Nat × BlockId)) :
      (s.tryPush x f args returnTo).isSome := by
    rw [tryPush_eq]
    rfl
  have hlaid := Laid.of_reachable h
  exact ⟨⟨hlaid.tidy, room s⟩, fun f args c s' hd => ⟨(hlaid.of_during hd).tidy, room s'⟩⟩

/-- Two frames pushed by hand, of which a pop removes one, and the start of a call over the other. -/
theorem tidy_factorial :
    let x : Setting := ⟨.factorial, ⟨4, none⟩⟩
    ∃ s, Reachable x s ∧ s.depth = 1 ∧ s.values.size = 4 ∧ s.Tidy x ∧
      ∃ s', s.During x ⟨0⟩ [.int 5] .start s' ∧ s'.depth = 2 ∧ s'.values.size = 8 ∧ s'.Tidy x := by
  intro x
  obtain ⟨s₁, hpush₁⟩ : ∃ s, fresh.push x ⟨0⟩ [.int 3] (some (1, ⟨1⟩)) = .ok s := ⟨_, rfl⟩
  obtain ⟨s₂, hpush₂⟩ : ∃ s, s₁.push x ⟨0⟩ [.uninit] none = .ok s := by
    cases hpush₁
    exact ⟨_, rfl⟩
  have hs : Reachable x (s₂.tryPop x).2 := .pop (((Reachable.new none).of_push hpush₁).of_push hpush₂)
  obtain ⟨⟨htidy, -⟩, hduring⟩ := tidy_of_reachable hs
  obtain ⟨s', hd, hdepth, hsize⟩ : ∃ s', (s₂.tryPop x).2.During x ⟨0⟩ [.int 5] .start s' ∧ s'.depth = 2 ∧
      s'.values.size = 8 := by
    cases hpush₁
    cases hpush₂
    exact ⟨_, ⟨_, rfl, .refl _ _⟩, by decide +kernel, by decide +kernel⟩
  refine ⟨_, hs, ?_, ?_, htidy, s', hd, hdepth, hsize, (hduring _ _ _ _ hd).1⟩
  · cases hpush₁
    cases hpush₂
    rfl
  · cases hpush₁
    cases hpush₂
    decide +kernel

end Machine

end BlockIR
