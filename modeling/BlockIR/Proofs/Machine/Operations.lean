import BlockIR.Proofs.Machine.Frames

/-!
# Operations on a machine

What can be done to a machine from outside: frames are pushed and popped, slots are written to, and
functions are called. Here an operation gives the machine after it also where it fails, and a push makes
room on the value stack before it copies the arguments there.
-/

namespace BlockIR.Machine

/-- Further slots at the end of a value stack, which nothing was written to. -/
def extend (n : Nat) (values : Array Value) : Array Value := values ++ Array.replicate n .uninit

/-- Copies values to the slots from a position on, if there are that many. -/
def copy? (start : Nat) (vs : List Value) (values : Array Value) : Option (Array Value) :=
  if start + vs.length ≤ values.size then
    some (values.toList.take start ++ vs ++ values.toList.drop (start + vs.length)).toArray
  else none

/-- Pushes a frame: makes room for its slots, copies the arguments, and then enters the frame. There is no
result at all if the slots of the arguments do not exist. -/
def tryPush (x : Setting) (f : FuncId) (args : List Value) (returnTo : Option (Nat × BlockId))
    (s : Machine) : Option (Except Fault Unit × Machine) :=
  match x.module.get? f with
  | none => some (.error (.unknownFunction f.text), s)
  | some function =>
    let expected := function.body.args.toNat
    if args.length ≠ expected then
      some (.error (.argumentCount function.name expected args.length), s)
    else if x.config.maxDepth ≤ s.depth then some (.error (.stackOverflow x.config.maxDepth), s)
    else
      let fr := Frame.ofBody f function.body s.values.size returnTo
      let s := { s with values := extend fr.size s.values }
      match copy? (fr.offset + 1) args s.values with
      | none => none
      | some values =>
        let s := { s with values, calls := s.calls.push fr }
        some (.ok (), s.record (.pushed (nameOf x f) s.depth fr.offset))

/-- Pops the innermost frame, and then its slots. -/
def tryPop (x : Setting) (s : Machine) : Except Fault Frame × Machine :=
  match s.calls.top? with
  | none => (.error .noFrame, s)
  | some fr =>
    let s := { s with calls := s.calls.pop }
    let s := { s with values := s.values.shrink fr.offset }
    (.ok fr, s.record (.popped (nameOf x fr.func) s.depth))

/-- A machine to which a new one can come by operations. -/
inductive Reachable (x : Setting) : Machine → Prop
  | new (log : Option (List Event)) : Reachable x { fresh with log }
  | push {s s' : Machine} {f : FuncId} {args : List Value} {returnTo : Option (Nat × BlockId)}
      {r : Except Fault Unit} (h : Reachable x s) (hpush : s.tryPush x f args returnTo = some (r, s')) :
      Reachable x s'
  | pop {s : Machine} (h : Reachable x s) : Reachable x (s.tryPop x).2
  | write {s : Machine} (h : Reachable x s) (i : Nat) (v : Value) : Reachable x (s.writeSlot i v)
  | call {s : Machine} (h : Reachable x s) (f : FuncId) (args : List Value) :
      Reachable x (s.call x f args).2
  | callNamed {s : Machine} (h : Reachable x s) (name : String) (args : List Value) :
      Reachable x (s.callNamed x name args).2

lemma copy?_extend {fr : Frame} {args : List Value} (hargs : args.length = fr.args) {values : Array Value}
    (hoffset : fr.offset = values.size) :
    copy? (fr.offset + 1) args (extend fr.size values) = some (values ++ fr.initialSlots args) := by
  have hsize : fr.size = 1 + args.length + (fr.vars + fr.temps) := by
    simp only [Frame.size]
    omega
  have hroom : fr.offset + 1 + args.length ≤ (extend fr.size values).size := by
    simp only [extend, Array.size_append, Array.size_replicate]
    omega
  have hslots : (extend fr.size values).toList = values.toList ++ [.uninit] ++
      List.replicate args.length .uninit ++ List.replicate (fr.vars + fr.temps) .uninit := by
    simp only [extend, Array.toList_append, Array.toList_replicate, hsize, ← List.replicate_append_replicate,
      List.append_assoc]
    rfl
  have hfront : (values.toList ++ [Value.uninit]).length = fr.offset + 1 := by
    rw [List.length_append, Array.length_toList, hoffset]
    rfl
  have hbehind : (values.toList ++ [Value.uninit] ++ List.replicate args.length Value.uninit).length =
      fr.offset + 1 + args.length := by
    rw [List.length_append, hfront, List.length_replicate]
  have htake : (extend fr.size values).toList.take (fr.offset + 1) = values.toList ++ [.uninit] := by
    rw [hslots, List.append_assoc (_ ++ _), List.take_left' hfront]
  rw [copy?, if_pos hroom, Option.some.injEq, ← Array.toList_inj, Array.toList_appendList, htake, hslots,
    List.drop_left' hbehind, Frame.initialSlots]
  simp only [List.append_assoc, List.cons_append, List.nil_append]

lemma tryPush_eq (x : Setting) (f : FuncId) (args : List Value) (returnTo : Option (Nat × BlockId))
    (s : Machine) :
    s.tryPush x f args returnTo = some (match s.push x f args returnTo with
      | .ok s' => (.ok (), s')
      | .error e => (.error e, s)) := by
  unfold tryPush push newFrame
  cases x.module.get? f with
  | none => rfl
  | some function =>
    dsimp only
    by_cases hargs : args.length ≠ function.body.args.toNat
    · rw [if_pos hargs, if_pos hargs]
      rfl
    · rw [if_neg hargs, if_neg hargs]
      by_cases hdepth : x.config.maxDepth ≤ s.depth
      · rw [if_pos hdepth, if_pos hdepth]
        rfl
      · rw [if_neg hdepth, if_neg hdepth, copy?_extend (not_not.1 hargs) rfl]
        rfl

lemma Reachable.of_push {x : Setting} {s s' : Machine} (h : Reachable x s) {f : FuncId} {args : List Value}
    {returnTo : Option (Nat × BlockId)} (hpush : s.push x f args returnTo = .ok s') : Reachable x s' := by
  have htry : s.tryPush x f args returnTo = some (.ok (), s') := by rw [tryPush_eq, hpush]
  exact h.push htry

lemma tryPop_eq (x : Setting) (s : Machine) :
    s.tryPop x = match s.pop x with
      | .ok (fr, s') => (.ok fr, s')
      | .error e => (.error e, s) := by
  unfold tryPop pop
  cases s.calls.top? <;> rfl

end BlockIR.Machine
