import BlockIR.Draft
import Mathlib.Tactic.Common

/-!
# Code that is moved

Code with its positions changed, and the positions that a module has. Drafting and changing positions commute.
-/

namespace BlockIR

def Arena.map {κ α β : Type} (f : α → β) (a : Arena κ α) : Arena κ β := ⟨a.slots.map f⟩

section Definitions

variable (f : Pos → Pos)

def Statement.mapPos (s : Statement) : Statement := { s with pos := f s.pos }

def Terminator.mapPos (t : Terminator) : Terminator := { t with pos := f t.pos }

def Block.mapPos (b : Block) : Block := ⟨b.statements.map (·.mapPos f), b.terminator.mapPos f⟩

def Body.mapPos (b : Body) : Body := { b with blocks := b.blocks.map (·.mapPos f) }

def Function.mapPos (g : Function) : Function := { g with body := g.body.mapPos f }

/-- The module with the positions of its code changed. -/
def Module.mapPos (m : Module) : Module := { m with functions := m.functions.map (·.mapPos f) }

def OpenBlock.mapPos (b : OpenBlock) : OpenBlock :=
  ⟨b.statements.map (·.mapPos f), b.terminator.map (·.mapPos f)⟩

def Draft.mapPos (d : Draft) : Draft := { d with blocks := d.blocks.map (·.mapPos f) }

end Definitions

def Block.positions (b : Block) : List Pos := b.statements.map (·.pos) ++ [b.terminator.pos]

def Function.positions (g : Function) : List Pos := g.body.blocks.toList.flatMap Block.positions

/-- The positions of statements and terminators, in the order of the code. -/
def Module.positions (m : Module) : List Pos := m.functions.toList.flatMap Function.positions

section Positions

variable {f : Pos → Pos}

lemma Block.positions_mapPos (b : Block) : (b.mapPos f).positions = b.positions.map f := by
  rw [positions, positions, mapPos, List.map_map, List.map_append, List.map_map]
  rfl

lemma Function.positions_mapPos (g : Function) : (g.mapPos f).positions = g.positions.map f := by
  have hblocks : (g.mapPos f).body.blocks.toList = g.body.blocks.toList.map (Block.mapPos f) :=
    Array.toList_map
  rw [positions, positions, hblocks, List.flatMap_map, List.map_flatMap]
  exact congrArg (List.flatMap · _) (funext Block.positions_mapPos)

lemma Module.positions_mapPos (m : Module) : (m.mapPos f).positions = m.positions.map f := by
  have hfunctions : (m.mapPos f).functions.toList = m.functions.toList.map (Function.mapPos f) :=
    Array.toList_map
  rw [positions, positions, hfunctions, List.flatMap_map, List.map_flatMap]
  exact congrArg (List.flatMap · _) (funext Function.positions_mapPos)

end Positions

lemma map_modify {α β : Type} (f : α → β) (g : α → α) (k : β → β) (h : ∀ x, f (g x) = k (f x))
    (xs : Array α) (i : Nat) : (xs.modify i g).map f = (xs.map f).modify i k := by
  refine Array.ext_getElem? fun j => ?_
  simp only [Array.getElem?_map, Array.getElem?_modify]
  split_ifs
  · rw [Option.map_map, Option.map_map]
    exact congrArg (Option.map · xs[j]?) (funext h)
  · rfl

namespace OpenBlock

variable (f : Pos → Pos) (b : OpenBlock)

lemma mapPos_empty : empty.mapPos f = empty := by
  simp only [mapPos, empty, Array.map_empty, Option.map_none]

lemma mapPos_push (s : Statement) : mapPos f ⟨b.statements.push s, b.terminator⟩ =
    ⟨(b.mapPos f).statements.push (s.mapPos f), (b.mapPos f).terminator⟩ := by
  simp only [mapPos, Array.map_push]

lemma closed?_mapPos : (b.mapPos f).closed? = b.closed?.map (Block.mapPos f) := by
  obtain ⟨statements, terminator⟩ := b
  cases terminator with
  | none => rfl
  | some t => exact congrArg (fun ss => some (Block.mk ss (t.mapPos f))) Array.toList_map

end OpenBlock

namespace Draft

variable (f : Pos → Pos) (d : Draft)

lemma currentBlock_mapPos :
    (d.mapPos f).currentBlock = d.currentBlock.map fun r => (r.1, r.2.mapPos f) := by
  unfold currentBlock
  cases hcurrent : d.current with
  | none => simp only [mapPos, hcurrent, Except.map]
  | some b =>
    simp only [mapPos, hcurrent, Array.getElem?_map, Array.size_map]
    cases d.blocks[Key.toNat b]? with
    | none => rfl
    | some block => rfl

lemma modify_mapPos {g k : OpenBlock → OpenBlock} (h : ∀ b, (g b).mapPos f = k (b.mapPos f)) (e : DraftFault) :
    ((d.mapPos f).currentBlock >>= fun r => if r.2.terminator.isSome then .error e
      else .ok { d.mapPos f with blocks := (d.mapPos f).blocks.modify r.1 k }) =
    (d.currentBlock >>= fun r => if r.2.terminator.isSome then .error e
      else .ok { d with blocks := d.blocks.modify r.1 g }).map (mapPos f) := by
  rw [currentBlock_mapPos]
  cases d.currentBlock with
  | error e => rfl
  | ok r =>
    obtain ⟨i, block⟩ := r
    have hterminated : (block.mapPos f).terminator.isSome = block.terminator.isSome := Option.isSome_map
    simp only [Except.map, bind, Except.bind, hterminated]
    split_ifs
    · rfl
    · have hmodify := map_modify (OpenBlock.mapPos f) g k h d.blocks i
      exact congrArg (fun bs => Except.ok { d with blocks := bs }) hmodify.symm

lemma append_mapPos (s : Statement) : (d.mapPos f).append (s.mapPos f) = (d.append s).map (mapPos f) :=
  modify_mapPos f d (fun b => OpenBlock.mapPos_push f b s) .statementAfterEnd

lemma terminate_mapPos (t : Terminator) :
    (d.mapPos f).terminate (t.mapPos f) = (d.terminate t).map (mapPos f) :=
  modify_mapPos f d (g := fun b => { b with terminator := some t })
    (k := fun b => { b with terminator := some (t.mapPos f) }) (fun _ => rfl) .secondEnd

lemma switchTo_mapPos (b : BlockId) : (d.mapPos f).switchTo b = (d.switchTo b).map (mapPos f) := by
  unfold switchTo
  simp only [mapPos, Array.size_map]
  split_ifs
  · rfl
  · rfl

lemma createBlocks_mapPos (n : Nat) : (d.mapPos f).createBlocks n = (d.createBlocks n).mapPos f := by
  induction n generalizing d with
  | zero => rfl
  | succ n ih =>
    have hone : (d.mapPos f).createBlock.2 = d.createBlock.2.mapPos f := by
      simp only [createBlock, mapPos, Array.map_push, OpenBlock.mapPos_empty]
    rw [createBlocks, hone, ih]
    rfl

lemma closeFrom_mapPos (i : Nat) (bs : List OpenBlock) :
    closeFrom i (bs.map (·.mapPos f)) = (closeFrom i bs).map (List.map (Block.mapPos f)) := by
  induction bs generalizing i with
  | nil => rfl
  | cons b bs ih =>
    rw [List.map_cons, closeFrom, OpenBlock.closed?_mapPos, closeFrom]
    cases b.closed? with
    | none => rfl
    | some block =>
      simp only [Option.map_some, ih]
      cases closeFrom (i + 1) bs with
      | error j => rfl
      | ok blocks => rfl

lemma finish_mapPos : (d.mapPos f).finish = d.finish.map (Body.mapPos f) := by
  have hblocks : (d.mapPos f).blocks.toList = d.blocks.toList.map (·.mapPos f) := Array.toList_map
  unfold finish
  rw [hblocks, closeFrom_mapPos]
  cases closeFrom 0 d.blocks.toList with
  | error i => rfl
  | ok blocks =>
    have hmap : (Arena.ofList blocks : Arena BlockId Block).map (Block.mapPos f) =
        .ofList (blocks.map (Block.mapPos f)) := congrArg Arena.mk (List.map_toArray)
    exact congrArg (fun bs => Except.ok (Body.mk d.args d.vars d.temps bs)) hmap.symm

end Draft

namespace Module

variable (f : Pos → Pos) (m : Module)

lemma declare_mapPos (name : String) (attrs : List Attribute) :
    (m.mapPos f).declare name attrs = (m.declare name attrs).mapPos f := by
  have hundefined : Body.undefined.mapPos f = .undefined := by
    simp only [Body.mapPos, Body.undefined, Arena.map, Arena.empty, Array.map_empty]
  simp only [declare, mapPos, Arena.map, Arena.push, Arena.nextKey, Arena.size, Array.map_push, Array.size_map,
    Function.mapPos, hundefined]

lemma define_mapPos (key : FuncId) (body : Body) :
    (m.mapPos f).define key (body.mapPos f) = (m.define key body).mapPos f := by
  have hmodify := map_modify (Function.mapPos f) ({ · with body := body }) ({ · with body := body.mapPos f })
    (fun _ => rfl) m.functions.slots (Key.toNat key)
  exact congrArg (fun fs => { m with functions := ⟨fs⟩ }) hmodify.symm

end Module

end BlockIR
