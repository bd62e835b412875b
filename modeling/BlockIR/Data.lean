import BlockIR.Binary64

/-!
# Data trees

The values of the interchange form of modules: numbers, text, lists and records. Whole numbers and
doubles are kept apart. A record has each field name once, and the order of its fields means nothing.
-/

namespace BlockIR

inductive Data
  | null
  | bool (value : Bool)
  | int (value : Int)
  | float (value : Binary64)
  | str (value : String)
  | list (items : List Data)
  | record (fields : List (String × Data))

/-- Types with an interchange form. -/
class Coded (α : Type) where
  encode : α → Data
  decode? : Data → Option α

export Coded (encode decode?)

namespace Data

def field? (name : String) : Data → Option Data
  | record fields => fields.lookup name
  | _ => none

/-- The fields of a structure, in the order of the names. A structure may also be written as the list of
its fields. -/
def fields? (names : List String) : Data → Option (List Data)
  | list items => if items.length = names.length then some items else none
  | record fields => names.mapM fun name => fields.lookup name
  | _ => none

/-- The fields of a structure that is always written with their names. -/
def named? (names : List String) : Data → Option (List Data)
  | record fields => names.mapM fun name => fields.lookup name
  | _ => none

/-- The name of a variant and its payload, if it has one. -/
def variant? : Data → Option (String × Option Data)
  | str name => some (name, none)
  | record [(name, payload)] => some (name, some payload)
  | _ => none

/-- A variant with a payload. -/
def variant (name : String) (payload : Data) : Data := record [(name, payload)]

/-- Whether a payload is that of a variant without one. -/
def isNoPayload : Option Data → Bool
  | none | some null => true
  | _ => false

/-- The items of a list of a known length. -/
def tuple? (n : Nat) : Data → Option (List Data)
  | list items => if items.length = n then some items else none
  | _ => none

/-- A whole number at least `lo` and less than `hi`. -/
def intIn? (lo hi : Int) : Data → Option Int
  | int n => if lo ≤ n ∧ n < hi then some n else none
  | _ => none

end Data

instance : Coded Bool where
  encode := .bool
  decode?
    | .bool b => some b
    | _ => none

instance : Coded String where
  encode := .str
  decode?
    | .str s => some s
    | _ => none

instance : Coded UInt32 where
  encode n := .int n.toNat
  decode? d := (d.intIn? 0 UInt32.size).map fun n => UInt32.ofNat n.toNat

instance : Coded UInt64 where
  encode n := .int n.toNat
  decode? d := (d.intIn? 0 UInt64.size).map fun n => UInt64.ofNat n.toNat

instance : Coded Int64 where
  encode n := .int n.toInt
  decode? d := (d.intIn? Int64.minValue.toInt (Int64.maxValue.toInt + 1)).map Int64.ofInt

/-- An infinite double has no interchange form; a whole number is read as the double nearest to it. -/
instance : Coded Binary64 where
  encode x := if x.isFinite then .float x else .null
  decode?
    | .float x => some x
    | .int n => some (.ofInt n)
    | _ => none

instance {α : Type} [Coded α] : Coded (List α) where
  encode xs := .list (xs.map encode)
  decode?
    | .list items => items.mapM decode?
    | _ => none

instance {α β : Type} [Coded α] [Coded β] : Coded (α × β) where
  encode x := .list [encode x.1, encode x.2]
  decode? d :=
    match d.tuple? 2 with
    | some [a, b] => return (← decode? a, ← decode? b)
    | _ => none

end BlockIR
