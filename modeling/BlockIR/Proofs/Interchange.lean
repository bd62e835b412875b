import BlockIR.Data.Module
import BlockIR.Proofs.RoundTrip.Writable
import Mathlib.Data.List.Induction

/-!
# Reading the interchange form

What was written is read back. Only a double that is not finite is lost, and with it all that it is part of.
-/

namespace BlockIR

/-- Types whose values are all read back as they were written. -/
class Coded.Faithful (α : Type) [Coded α] : Prop where
  decode_encode (x : α) : decode? (encode x) = some x

section Plain

open Coded.Faithful

lemma Data.intIn?_int {lo hi n : Int} (hlo : lo ≤ n) (hhi : n < hi) : (Data.int n).intIn? lo hi = some n :=
  if_pos ⟨hlo, hhi⟩

instance : Coded.Faithful Bool := ⟨fun _ => rfl⟩

instance : Coded.Faithful String := ⟨fun _ => rfl⟩

instance : Coded.Faithful UInt32 where
  decode_encode n := by
    have hn : (Data.int n.toNat).intIn? 0 UInt32.size = some (n.toNat : Int) :=
      Data.intIn?_int (Int.natCast_nonneg _) (Int.ofNat_lt.2 n.toNat_lt)
    simp only [encode, decode?, hn, Option.map_some, Int.toNat_natCast, UInt32.ofNat_toNat]

instance : Coded.Faithful UInt64 where
  decode_encode n := by
    have hn : (Data.int n.toNat).intIn? 0 UInt64.size = some (n.toNat : Int) :=
      Data.intIn?_int (Int.natCast_nonneg _) (Int.ofNat_lt.2 n.toNat_lt)
    simp only [encode, decode?, hn, Option.map_some, Int.toNat_natCast, UInt64.ofNat_toNat]

instance : Coded.Faithful Int64 where
  decode_encode n := by
    have hn : (Data.int n.toInt).intIn? Int64.minValue.toInt (Int64.maxValue.toInt + 1) = some n.toInt :=
      Data.intIn?_int n.minValue_le_toInt (Int.lt_add_one_of_le n.toInt_le)
    simp only [encode, decode?, hn, Option.map_some, Int64.ofInt_toInt]

instance {α : Type} [Coded α] [Coded.Faithful α] : Coded.Faithful (List α) where
  decode_encode xs := by
    calc decode? (encode xs) = (xs.map encode).mapM decode? := rfl
      _ = xs.mapM fun x => decode? (encode x) := List.mapM_map
      _ = xs.mapM fun x => some x := by simp only [decode_encode]
      _ = some (xs.map fun x => x) := List.mapM_pure
      _ = some xs := by rw [List.map_id']

instance {α β : Type} [Coded α] [Coded β] [Coded.Faithful α] [Coded.Faithful β] : Coded.Faithful (α × β) where
  decode_encode x := by
    calc decode? (encode x) = (do return (← decode? (encode x.1), ← decode? (encode x.2))) := rfl
      _ = some x := by rw [decode_encode, decode_encode]; rfl

instance : Coded.Faithful FuncId where
  decode_encode f := by
    calc decode? (encode f) = (decode? (encode f.index)).map FuncId.mk := rfl
      _ = some f := by rw [decode_encode]; rfl

instance : Coded.Faithful BlockId where
  decode_encode b := by
    calc decode? (encode b) = (decode? (encode b.index)).map BlockId.mk := rfl
      _ = some b := by rw [decode_encode]; rfl

instance : Coded.Faithful Place where
  decode_encode
    | .result => rfl
    | .arg i => congrArg (Option.map Place.arg) (decode_encode i)
    | .var i => congrArg (Option.map Place.var) (decode_encode i)
    | .temp i => congrArg (Option.map Place.temp) (decode_encode i)

instance : Coded.Faithful BinOp := ⟨fun op => by cases op <;> rfl⟩

instance : Coded.Faithful UnOp := ⟨fun op => by cases op <;> rfl⟩

instance : Coded.Faithful DropKind := ⟨fun kind => by cases kind <;> rfl⟩

instance : Coded.Faithful Pos where
  decode_encode p := by
    calc decode? (encode p) = (do return ⟨← decode? (encode p.line), ← decode? (encode p.col)⟩) := rfl
      _ = some p := by rw [decode_encode, decode_encode]; rfl

instance : Coded.Faithful Attribute where
  decode_encode a := by
    calc decode? (encode a) = (do return ⟨← decode? (encode a.name), ← decode? (encode a.args)⟩) := rfl
      _ = some a := by rw [decode_encode, decode_encode]; rfl

end Plain

section Constants

open Coded

/-- What is read back of a value with some constants: the value, if they are all finite. -/
def readBack {α : Type} (cs : List Constant) (x : α) : Option α := if ∀ c ∈ cs, c.Finite then some x else none

variable {α β : Type} {cs ds : List Constant} {x : α} {y : β}

lemma readBack_nil : readBack [] x = some x := if_pos nofun

/-- Constants come together from the parts of a value. -/
lemma readBack_bind {f : α → Option β} (h : f x = readBack ds y) :
    (readBack cs x).bind f = readBack (cs ++ ds) y := by
  unfold readBack
  by_cases hcs : ∀ c ∈ cs, c.Finite
  · rw [if_pos hcs, Option.bind_some, h, readBack]
    simp only [List.forall_mem_append, and_iff_right hcs]
  · have happend : ¬ ∀ c ∈ cs ++ ds, c.Finite := fun hall => hcs (List.forall_mem_append.1 hall).1
    rw [if_neg hcs, if_neg happend, Option.bind_none]

lemma readBack_map (f : α → β) : (readBack cs x).map f = readBack cs (f x) := by
  rw [readBack, readBack, apply_ite (Option.map f)]
  rfl

lemma readBack_bind_pure (f : α → β) : (readBack cs x).bind (fun a => pure (f a)) = readBack cs (f x) := by
  rw [← readBack_map, Option.map_eq_bind]
  rfl

lemma mapM_readBack {xs : List α} {constants : α → List Constant} :
    xs.mapM (fun x => readBack (constants x) x) = readBack (xs.flatMap constants) xs := by
  induction xs with
  | nil => exact readBack_nil.symm
  | cons x xs ih =>
    rw [List.mapM_cons, ih, List.flatMap_cons]
    exact readBack_bind (readBack_bind_pure (x :: ·))

lemma decode_list [Coded α] {constants : α → List Constant}
    (h : ∀ x : α, decode? (encode x) = readBack (constants x) x) (xs : List α) :
    decode? (encode xs) = readBack (xs.flatMap constants) xs :=
  calc decode? (encode xs) = (xs.map encode).mapM decode? := rfl
    _ = xs.mapM fun x => decode? (encode x) := List.mapM_map
    _ = xs.mapM fun x => readBack (constants x) x := by simp only [h]
    _ = readBack (xs.flatMap constants) xs := mapM_readBack

lemma decode_arena {κ : Type} [Coded α] {constants : α → List Constant}
    (h : ∀ x : α, decode? (encode x) = readBack (constants x) x) (a : Arena κ α) :
    decode? (encode a) = readBack (a.toList.flatMap constants) a :=
  calc decode? (encode a) = (decode? (encode a.toList)).map Arena.ofList := rfl
    _ = readBack (a.toList.flatMap constants) a := by
      rw [decode_list h, readBack_map, Arena.ofList_toList]

lemma Binary64.decode_encode (x : Binary64) : decode? (encode x) = readBack [.float x] x := by
  have hfinite : (∀ c ∈ [Constant.float x], c.Finite) ↔ x.isFinite = true := List.forall_mem_singleton
  simp only [readBack, hfinite, encode]
  split_ifs <;> rfl

lemma Constant.decode_encode (c : Constant) : decode? (encode c) = readBack [c] c := by
  have hplain (h : c.Finite) : readBack [c] c = some c := if_pos (List.forall_mem_singleton.2 h)
  cases c with
  | float x =>
    calc decode? (encode (Constant.float x)) = (decode? (encode x)).map Constant.float := rfl
      _ = readBack [.float x] (.float x) := by rw [x.decode_encode, readBack_map]
  | int n =>
    calc decode? (encode (Constant.int n)) = (decode? (encode n)).map Constant.int := rfl
      _ = readBack [.int n] (.int n) := by rw [hplain trivial, Faithful.decode_encode, Option.map_some]
  | uint n =>
    calc decode? (encode (Constant.uint n)) = (decode? (encode n)).map Constant.uint := rfl
      _ = readBack [.uint n] (.uint n) := by rw [hplain trivial, Faithful.decode_encode, Option.map_some]
  | str s => exact (hplain trivial).symm
  | bool b => exact (hplain trivial).symm

lemma Operand.decode_encode (x : Operand) : decode? (encode x) = readBack x.constants x := by
  cases x with
  | read p =>
    calc decode? (encode (Operand.read p)) = (decode? (encode p)).map Operand.read := rfl
      _ = readBack [] (.read p) := by rw [Faithful.decode_encode, readBack_nil, Option.map_some]
  | const c =>
    calc decode? (encode (Operand.const c)) = (decode? (encode c)).map Operand.const := rfl
      _ = readBack [c] (.const c) := by rw [c.decode_encode, readBack_map]
  | func f =>
    calc decode? (encode (Operand.func f)) = (decode? (encode f)).map Operand.func := rfl
      _ = readBack [] (.func f) := by rw [Faithful.decode_encode, readBack_nil, Option.map_some]

lemma Rvalue.decode_encode (r : Rvalue) : decode? (encode r) = readBack r.constants r := by
  cases r with
  | use x =>
    calc decode? (encode (Rvalue.use x)) = (decode? (encode x)).map Rvalue.use := rfl
      _ = readBack x.constants (.use x) := by rw [x.decode_encode, readBack_map]
  | binary op x y =>
    calc decode? (encode (Rvalue.binary op x y)) =
          (do return Rvalue.binary (← decode? (encode op)) (← decode? (encode x)) (← decode? (encode y))) := rfl
      _ = readBack (Rvalue.binary op x y).constants (.binary op x y) := by
        rw [Faithful.decode_encode, x.decode_encode, y.decode_encode]
        exact readBack_bind (readBack_bind_pure _)
  | unary op x =>
    calc decode? (encode (Rvalue.unary op x)) =
          (do return Rvalue.unary (← decode? (encode op)) (← decode? (encode x))) := rfl
      _ = readBack (Rvalue.unary op x).constants (.unary op x) := by
        rw [Faithful.decode_encode, x.decode_encode]
        exact readBack_bind_pure _

lemma Action.decode_encode (a : Action) : decode? (encode a) = readBack a.constants a := by
  cases a with
  | assign p r =>
    calc decode? (encode (Action.assign p r)) =
          (do return Action.assign (← decode? (encode p)) (← decode? (encode r))) := rfl
      _ = readBack (Action.assign p r).constants (.assign p r) := by
        rw [Faithful.decode_encode, r.decode_encode]
        exact readBack_bind_pure _
  | drop kind p =>
    calc decode? (encode (Action.drop kind p)) =
          (do return Action.drop (← decode? (encode kind)) (← decode? (encode p))) := rfl
      _ = readBack [] (.drop kind p) := by
        rw [Faithful.decode_encode, Faithful.decode_encode, readBack_nil]
        rfl

lemma Statement.decode_encode (s : Statement) : decode? (encode s) = readBack s.action.constants s :=
  calc decode? (encode s) = (do return ⟨← decode? (encode s.action), ← decode? (encode s.pos)⟩) := rfl
    _ = readBack s.action.constants s := by
      rw [s.action.decode_encode, Faithful.decode_encode]
      exact readBack_bind_pure _

lemma Transfer.decode_encode (t : Transfer) : decode? (encode t) = readBack t.constants t := by
  cases t with
  | ret => exact readBack_nil.symm
  | diverge => exact readBack_nil.symm
  | goto b =>
    calc decode? (encode (Transfer.goto b)) = (decode? (encode b)).map Transfer.goto := rfl
      _ = readBack [] (.goto b) := by rw [Faithful.decode_encode, readBack_nil, Option.map_some]
  | panic b =>
    calc decode? (encode (Transfer.panic b)) = (decode? (encode b)).map Transfer.panic := rfl
      _ = readBack [] (.panic b) := by rw [Faithful.decode_encode, readBack_nil, Option.map_some]
  | branch c t e =>
    calc decode? (encode (Transfer.branch c t e)) =
          (do return Transfer.branch (← decode? (encode c)) (← decode? (encode t)) (← decode? (encode e))) := rfl
      _ = readBack (Transfer.branch c t e).constants (.branch c t e) := by
        rw [c.decode_encode, Faithful.decode_encode, Faithful.decode_encode]
        exact readBack_bind_pure _
  | switch p cases targets =>
    have hcases : decode? (encode cases) = readBack cases cases := by
      rw [decode_list Constant.decode_encode, List.flatMap_singleton']
    calc decode? (encode (Transfer.switch p cases targets)) =
          (do
            return Transfer.switch (← decode? (encode p)) (← decode? (encode cases))
              (← decode? (encode targets))) := rfl
      _ = readBack (Transfer.switch p cases targets).constants (.switch p cases targets) := by
        rw [Faithful.decode_encode, hcases, Faithful.decode_encode]
        exact readBack_bind_pure _
  | call p f xs b =>
    calc decode? (encode (Transfer.call p f xs b)) =
          (do
            return Transfer.call (← decode? (encode p)) (← decode? (encode f)) (← decode? (encode xs))
              (← decode? (encode b))) := rfl
      _ = readBack (Transfer.call p f xs b).constants (.call p f xs b) := by
        rw [Faithful.decode_encode, f.decode_encode, decode_list Operand.decode_encode, Faithful.decode_encode]
        exact readBack_bind (readBack_bind_pure _)

lemma Terminator.decode_encode (t : Terminator) : decode? (encode t) = readBack t.transfer.constants t :=
  calc decode? (encode t) = (do return ⟨← decode? (encode t.transfer), ← decode? (encode t.pos)⟩) := rfl
    _ = readBack t.transfer.constants t := by
      rw [t.transfer.decode_encode, Faithful.decode_encode]
      exact readBack_bind_pure _

lemma Block.decode_encode (b : Block) : decode? (encode b) = readBack b.constants b :=
  calc decode? (encode b) = (do return ⟨← decode? (encode b.statements), ← decode? (encode b.terminator)⟩) := rfl
    _ = readBack b.constants b := by
      rw [decode_list Statement.decode_encode, b.terminator.decode_encode]
      exact readBack_bind (readBack_bind_pure _)

lemma Body.decode_encode (b : Body) : decode? (encode b) = readBack b.constants b :=
  calc decode? (encode b) =
        (do return ⟨← decode? (encode b.args), ← decode? (encode b.vars), ← decode? (encode b.temps),
          ← decode? (encode b.blocks)⟩) := rfl
    _ = readBack b.constants b := by
      rw [Faithful.decode_encode, Faithful.decode_encode, Faithful.decode_encode, decode_arena Block.decode_encode]
      exact readBack_bind_pure _

lemma Function.decode_encode (f : Function) : decode? (encode f) = readBack f.body.constants f :=
  calc decode? (encode f) =
        (do return ⟨← decode? (encode f.name), ← decode? (encode f.attrs), ← decode? (encode f.body)⟩) := rfl
    _ = readBack f.body.constants f := by
      rw [Faithful.decode_encode, Faithful.decode_encode, f.body.decode_encode]
      exact readBack_bind_pure _

end Constants

namespace NameTable

variable {name : String} {f : FuncId} {es : List (String × FuncId)}

lemma perm_insertEntry (h : name ∉ es.map (·.1)) : (insertEntry name f es).Perm ((name, f) :: es) := by
  induction es with
  | nil => exact .refl _
  | cons e es ih =>
    rw [List.map_cons, List.mem_cons, not_or] at h
    unfold insertEntry
    split
    · exact .refl _
    · split
      · exact ((ih h.2).cons e).trans (.swap _ _ _)
      · next hle hge => exact absurd (String.le_antisymm (String.not_lt.1 hge) (String.not_lt.1 hle)) h.1

lemma perm_ofList (h : (es.map (·.1)).Nodup) : (ofList es).entries.Perm es := by
  induction es using List.reverseRecOn with
  | nil => exact .refl _
  | append_singleton es e ih =>
    rw [List.map_append, List.nodup_append] at h
    obtain ⟨hes, -, hdisjoint⟩ := h
    have hold : (ofList es).entries.Perm es := ih hes
    have hnew : e.1 ∉ (ofList es).entries.map (·.1) := fun hmem =>
      hdisjoint e.1 ((hold.map _).mem_iff.1 hmem) e.1 (List.mem_singleton_self _) rfl
    have hinsert : ofList (es ++ [e]) = (ofList es).insert e.1 e.2 := by
      rw [ofList, List.foldl_append]
      rfl
    rw [hinsert]
    exact (perm_insertEntry hnew).trans ((hold.cons e).trans (List.perm_append_singleton e es).symm)

lemma eq_of_entries {s t : NameTable} (h : s.entries = t.entries) : s = t := by
  cases s
  cases t
  cases h
  rfl

lemma ofList_of_perm {t : NameTable} (h : es.Perm t.entries) : ofList es = t := by
  have hnodup : (t.entries.map (·.1)).Nodup := List.pairwise_map.2 (t.sorted.imp String.ne_of_lt)
  have hperm : (ofList es).entries.Perm t.entries := (perm_ofList ((h.map _).nodup_iff.2 hnodup)).trans h
  exact eq_of_entries
    (hperm.eq_of_pairwise (fun a b _ _ hab hba => absurd hba (String.lt_asymm hab)) (ofList es).sorted t.sorted)

lemma decode_entries {t : NameTable} (h : es.Perm t.entries) :
    decode? (.record (es.map fun e => (e.1, encode e.2))) = some t := by
  have hread : (es.map fun e => (e.1, encode e.2)).mapM (fun e => (decode? e.2).map (e.1, ·)) = some es := by
    simp only [List.mapM_map, Function.comp_def, Coded.Faithful.decode_encode, Option.map_some]
    exact (List.mapM_pure (m := Option) (f := id)).trans (congrArg some (List.map_id es))
  calc decode? (.record (es.map fun e => (e.1, encode e.2)))
    _ = ((es.map fun e => (e.1, encode e.2)).mapM fun e => (decode? e.2).map (e.1, ·)).map ofList := rfl
    _ = some t := by rw [hread, Option.map_some, ofList_of_perm h]

end NameTable

lemma Binary64.isInfinite_eq_false_iff {x : Binary64} (h : x.isNaN = false) : x.isInfinite = false ↔ x.isFinite := by
  have hlt : x.exponentField < 2048 := Nat.mod_lt _ (by decide)
  have hexponent : x.isInfinite = false ↔ x.exponentField ≠ 2047 := by
    unfold isNaN at h
    unfold isInfinite
    by_cases hfield : x.exponentField = 2047
    · simpa [hfield] using h
    · simp [hfield]
  rw [hexponent, isFinite, decide_eq_true_eq]
  omega

namespace Module

/-- The constants of all functions. -/
def constants (m : Module) : List Constant := m.functions.toList.flatMap (·.body.constants)

/-- An interchange form of a module. The entries of the name table may come in any order. -/
def IsForm (m : Module) (d : Data) : Prop :=
  ∃ es : List (String × FuncId), es.Perm m.names.entries ∧
    d = .record [("name", encode m.name), ("functions", encode m.functions),
      ("names", .record (es.map fun e => (e.1, encode e.2)))]

lemma isForm_encode (m : Module) : m.IsForm (encode m) := ⟨m.names.entries, .refl _, rfl⟩

lemma decode_form {m : Module} {d : Data} (h : m.IsForm d) : decode? d = readBack m.constants m := by
  obtain ⟨es, hes, rfl⟩ := h
  calc decode? (.record [("name", encode m.name), ("functions", encode m.functions),
          ("names", .record (es.map fun e => (e.1, encode e.2)))]) =
        (do
          return Module.mk (← decode? (encode m.name)) (← decode? (encode m.functions))
            (← decode? (.record (es.map fun e => (e.1, encode e.2))))) := rfl
    _ = readBack m.constants m := by
      rw [Coded.Faithful.decode_encode, decode_arena Function.decode_encode, NameTable.decode_entries hes]
      exact readBack_bind_pure _

/-- Interchange forms keep all of a module whose floating-point constants are numbers. If one of them is infinite, they
cannot be read. -/
theorem interchange_faithful {m : Module} (hnan : ∀ x, .float x ∈ m.constants → x.isNaN = false) :
    m.IsForm (encode m) ∧ ∀ d, m.IsForm d →
      (decode? d = some m ↔ ∀ x, .float x ∈ m.constants → x.isInfinite = false) ∧
      ((∃ x, .float x ∈ m.constants ∧ x.isInfinite) → (decode? d : Option Module) = none) := by
  refine ⟨m.isForm_encode, fun d hd => ?_⟩
  have hfinite : (∀ c ∈ m.constants, c.Finite) ↔ ∀ x, .float x ∈ m.constants → x.isInfinite = false := by
    constructor
    · intro h x hx
      exact (Binary64.isInfinite_eq_false_iff (hnan x hx)).2 (h _ hx)
    · intro h c hc
      cases c with
      | float x => exact (Binary64.isInfinite_eq_false_iff (hnan x hc)).1 (h x hc)
      | _ => trivial
  rw [decode_form hd, readBack, ← hfinite]
  split_ifs with hall
  · refine ⟨iff_of_true rfl hall, fun ⟨x, hx, hinfinite⟩ => ?_⟩
    rw [hfinite.1 hall x hx] at hinfinite
    cases hinfinite
  · exact ⟨iff_of_false nofun hall, fun _ => rfl⟩

/-- A module that returns a constant, with a name that no function has. -/
def returning (x : Binary64) : Module where
  name := "numbers"
  functions := .ofList
    [⟨"f", [], 0, 0, 0, .ofList [⟨[⟨.assign .result (.use (.const (.float x))), ⟨2, 3⟩⟩], .ret, ⟨3, 3⟩⟩]⟩]
  names := .ofList [("g", ⟨7⟩)]

/-- The number 1.5 is kept, and infinity is not. -/
theorem returning_interchange :
    decode? (encode (returning ⟨0x3FF8000000000000⟩)) = some (returning ⟨0x3FF8000000000000⟩) ∧
      (decode? (encode (returning (.infinity false))) : Option Module) = none := by
  have hnan {x : Binary64} (hx : x.isNaN = false) : ∀ y, .float y ∈ (returning x).constants → y.isNaN = false := by
    intro y hy
    cases List.mem_singleton.1 (show .float y ∈ [Constant.float x] from hy)
    exact hx
  obtain ⟨hform, hforms⟩ := interchange_faithful (hnan (x := ⟨0x3FF8000000000000⟩) (by decide))
  obtain ⟨hform', hforms'⟩ := interchange_faithful (hnan (x := .infinity false) (by decide))
  refine ⟨(hforms _ hform).1.2 fun y hy => ?_, (hforms' _ hform').2 ⟨_, List.mem_singleton_self _, by decide⟩⟩
  cases List.mem_singleton.1 (show .float y ∈ [Constant.float ⟨0x3FF8000000000000⟩] from hy)
  decide

end Module

end BlockIR
