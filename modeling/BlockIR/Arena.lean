/-!
# Arenas

An arena is an append-only table. A key is the position of a slot, it is 32 bits wide, and the type of
the key keeps the keys of one kind of table away from those of another.
-/

namespace BlockIR

/-- Types whose values name the slots of an arena. -/
class Key (κ : Type) where
  ofIndex : UInt32 → κ
  index : κ → UInt32
  index_ofIndex : ∀ i, index (ofIndex i) = i
  ofIndex_index : ∀ k, ofIndex (index k) = k

namespace Key

variable {κ : Type} [Key κ]

/-- The position of the slot that a key names. -/
def toNat (k : κ) : Nat := (index k).toNat

/-- The key of a position that is known to fit in 32 bits. -/
def ofNat (n : Nat) : κ := ofIndex (UInt32.ofNat n)

/-- The key of a position, if it fits in 32 bits. -/
def ofNat? (n : Nat) : Option κ := if n < UInt32.size then some (ofNat n) else none

/-- What is said of a position that does not fit. -/
def tooLarge : String := "index is not representable with key type: TryFromIntError(PosOverflow)"

/-- A key as it is shown for debugging: the name of its type, and the position. -/
def debugText (type : String) (k : κ) : String := type ++ "(" ++ toString (toNat k) ++ ")"

theorem toNat_ofNat {n : Nat} (h : n < UInt32.size) : toNat (ofNat n : κ) = n := by
  simp [toNat, ofNat, index_ofIndex, UInt32.toNat_ofNat_of_lt' h]

theorem toNat_lt (k : κ) : toNat k < UInt32.size := (index k).toNat_lt

theorem toNat_injective {j k : κ} (h : toNat j = toNat k) : j = k := by
  have h' : index j = index k := UInt32.toNat_inj.1 h
  rw [← ofIndex_index j, ← ofIndex_index k, h']

theorem ofNat_toNat (k : κ) : (ofNat (toNat k) : κ) = k := toNat_injective (toNat_ofNat (toNat_lt k))

theorem ofNat?_eq_some_iff {n : Nat} {k : κ} : ofNat? n = some k ↔ toNat k = n := by
  unfold ofNat?
  split
  · next h =>
    rw [Option.some.injEq]
    constructor
    · rintro rfl
      exact toNat_ofNat h
    · rintro rfl
      exact ofNat_toNat k
  · next h =>
    refine iff_of_false nofun ?_
    rintro rfl
    exact h (toNat_lt k)

end Key

/-- A table of values in the order in which they were added. -/
structure Arena (κ α : Type) where
  slots : Array α
deriving DecidableEq

namespace Arena

variable {κ α β : Type}

def empty : Arena κ α := ⟨#[]⟩

def ofList (xs : List α) : Arena κ α := ⟨xs.toArray⟩

def toList (a : Arena κ α) : List α := a.slots.toList

def size (a : Arena κ α) : Nat := a.slots.size

def isEmpty (a : Arena κ α) : Bool := a.slots.isEmpty

def push (a : Arena κ α) (x : α) : Arena κ α := ⟨a.slots.push x⟩

@[simp] theorem toList_empty : (empty : Arena κ α).toList = [] := rfl

@[simp] theorem toList_ofList (xs : List α) : (ofList xs : Arena κ α).toList = xs := rfl

@[simp] theorem ofList_toList (a : Arena κ α) : (ofList a.toList : Arena κ α) = a := rfl

@[simp] theorem toList_push (a : Arena κ α) (x : α) : (a.push x).toList = a.toList ++ [x] := by
  simp [toList, push]

@[simp] theorem length_toList (a : Arena κ α) : a.toList.length = a.size := by simp [toList, size]

theorem toList_inj {a b : Arena κ α} : a.toList = b.toList ↔ a = b := by
  cases a; cases b; simp [toList, Array.toList_inj]

variable [Key κ]

/-- The key that the next value will get. -/
def nextKey (a : Arena κ α) : κ := Key.ofNat a.size

def contains (a : Arena κ α) (k : κ) : Bool := Key.toNat k < a.size

def get? (a : Arena κ α) (k : κ) : Option α := a.slots[Key.toNat k]?

/-- Changes the value of a slot; a key that names no slot changes nothing. -/
def modify (a : Arena κ α) (k : κ) (f : α → α) : Arena κ α := ⟨a.slots.modify (Key.toNat k) f⟩

def set (a : Arena κ α) (k : κ) (x : α) : Arena κ α := a.modify k fun _ => x

def keys (a : Arena κ α) : List κ := (List.range a.size).map Key.ofNat

/-- Every value beside its key, in order. -/
def entries (a : Arena κ α) : List (κ × α) := a.toList.zipIdx.map fun (x, i) => (Key.ofNat i, x)

/-- The entries as they are shown for debugging, by the texts of keys and values. -/
def debugText (key : κ → String) (value : α → String) (a : Arena κ α) : String :=
  "ArenaMap \x7b" ++ String.intercalate ", " (a.entries.map fun (k, x) => key k ++ ": " ++ value x) ++ "\x7d"

/-- Changes every value, given its key. -/
def mapEntries (f : κ → α → β) (a : Arena κ α) : Arena κ β :=
  ⟨a.slots.mapIdx fun i x => f (Key.ofNat i) x⟩

theorem get?_eq_getElem?_toList (a : Arena κ α) (k : κ) : a.get? k = a.toList[Key.toNat k]? := by
  simp [get?, toList]

theorem snd_mem_of_mem_entries {a : Arena κ α} {e : κ × α} (h : e ∈ a.entries) : e.2 ∈ a.toList := by
  obtain ⟨⟨x, i⟩, hmem, rfl⟩ := List.mem_map.1 h
  exact List.fst_mem_of_mem_zipIdx hmem

theorem get?_mapEntries (f : κ → α → β) (a : Arena κ α) (k : κ) :
    (a.mapEntries f).get? k = (a.get? k).map (f k) := by
  simp [get?, mapEntries, Key.ofNat_toNat]

theorem isSome_get? (a : Arena κ α) (k : κ) : (a.get? k).isSome = a.contains k := by
  unfold contains get? size
  by_cases h : Key.toNat k < a.slots.size <;> simp [h]

end Arena

end BlockIR
