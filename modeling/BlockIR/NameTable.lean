import BlockIR.Operand

/-!
# Name tables

A name table gives each of its names one function. The entries are kept in increasing order of names, so
two tables that answer every search alike are the same table.
-/

namespace BlockIR

/-- The names of the functions of a module. -/
structure NameTable where
  entries : List (String × FuncId)
  sorted : entries.Pairwise (fun a b => a.1 < b.1) := by simp
deriving DecidableEq

namespace NameTable

def empty : NameTable := ⟨[], .nil⟩

def find? (t : NameTable) (name : String) : Option FuncId := t.entries.lookup name

/-- Puts a name in its place among sorted entries, where it replaces an entry of the same name. -/
def insertEntry (name : String) (f : FuncId) : List (String × FuncId) → List (String × FuncId)
  | [] => [(name, f)]
  | e :: es =>
    if name < e.1 then (name, f) :: e :: es
    else if e.1 < name then e :: insertEntry name f es
    else (name, f) :: es

theorem mem_insertEntry {name : String} {f : FuncId} {es : List (String × FuncId)}
    {x : String × FuncId} (h : x ∈ insertEntry name f es) : x = (name, f) ∨ x ∈ es := by
  induction es with
  | nil => simpa [insertEntry] using h
  | cons e es ih => grind [insertEntry]

theorem pairwise_insertEntry {name : String} {f : FuncId} {es : List (String × FuncId)}
    (h : es.Pairwise (fun a b => a.1 < b.1)) :
    (insertEntry name f es).Pairwise (fun a b => a.1 < b.1) := by
  induction es with
  | nil => simp [insertEntry]
  | cons e es ih =>
    obtain ⟨he, hes⟩ := List.pairwise_cons.1 h
    unfold insertEntry
    split
    · next hlt =>
      refine List.pairwise_cons.2 ⟨fun x hx => ?_, h⟩
      rcases List.mem_cons.1 hx with rfl | hx
      · exact hlt
      · exact String.lt_trans hlt (he x hx)
    · split
      · next hgt =>
        refine List.pairwise_cons.2 ⟨fun x hx => ?_, ih hes⟩
        rcases mem_insertEntry hx with rfl | hx
        · exact hgt
        · exact he x hx
      · next hle hge =>
        have heq : name = e.1 := String.le_antisymm (String.not_lt.1 hge) (String.not_lt.1 hle)
        exact List.pairwise_cons.2 ⟨fun x hx => heq ▸ he x hx, hes⟩

/-- The last insertion of a name decides what it means. -/
def insert (t : NameTable) (name : String) (f : FuncId) : NameTable :=
  ⟨insertEntry name f t.entries, pairwise_insertEntry t.sorted⟩

def ofList (es : List (String × FuncId)) : NameTable :=
  es.foldl (fun t e => t.insert e.1 e.2) empty

end NameTable

end BlockIR
