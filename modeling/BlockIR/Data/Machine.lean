import BlockIR.Data.Module
import BlockIR.Machine.Basic

/-!
# The interchange form of values and limits
-/

namespace BlockIR

instance : Coded Value where
  encode
    | .uninit => .str "Uninit"
    | .bool b => .variant "Bool" (encode b)
    | .int n => .variant "Int" (encode n)
    | .func f => .variant "Func" (encode f)
  decode? d :=
    match d.variant? with
    | some ("Uninit", payload) => if Data.isNoPayload payload then some .uninit else none
    | some ("Bool", some b) => (decode? b).map .bool
    | some ("Int", some n) => (decode? n).map .int
    | some ("Func", some f) => (decode? f).map .func
    | _ => none

/-- A limit as data, null where there is none. -/
def Data.ofLimit : Option Nat → Data
  | some n => .int n
  | none => .null

/-- The limits of a run as a record. -/
def Config.toData (c : Config) : Data :=
  .record [("max_call_depth", .int c.maxDepth), ("step_limit", .ofLimit c.stepLimit)]

end BlockIR
