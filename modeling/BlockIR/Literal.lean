import BlockIR.Operand
import BlockIR.Text.Numeral
import BlockIR.Text.Quoted

/-!
# Literals

The constant that the spelling of a literal stands for.
-/

namespace BlockIR.Literal

/-- The digits of a spelling and their radix. -/
def radixAndDigits : List Char → Nat × List Char
  | '0' :: 'x' :: ds => (16, ds)
  | '0' :: 'b' :: ds => (2, ds)
  | '0' :: 'o' :: ds => (8, ds)
  | ds => (10, ds)

/-- The value of a spelling without a sign, if it fits in 64 bits. -/
def magnitude? (spelling : List Char) : Option Nat :=
  let (radix, digits) := radixAndDigits spelling
  Numeral.below? UInt64.size radix digits

/-- A decimal spelling has to be in the range of signed 64-bit numbers; the others spell bits. -/
def int? : List Char → Option Int64
  | '-' :: spelling =>
    (magnitude? spelling).bind fun n => if n ≤ UInt64.size / 2 then some (Int64.ofInt (-n)) else none
  | spelling =>
    (magnitude? spelling).bind fun n =>
      if (radixAndDigits spelling).1 ≠ 10 then some (UInt64.ofNat n).toInt64
      else if n < UInt64.size / 2 then some (Int64.ofInt n)
      else none

/-- The value of an unsigned spelling, which ends in a `u`. -/
def uint? (spelling : List Char) : Option UInt64 := (magnitude? spelling.dropLast).map UInt64.ofNat

/-- The value of the exponent of a float, which needs digits. -/
def exponent? : List Char → Option Int
  | [] => some 0
  | 'e' :: '-' :: ds => (Numeral.value? 10 ds).map fun n => -(n : Int)
  | 'e' :: ds => (Numeral.value? 10 ds).map fun n => (n : Int)
  | _ => none

/-- The double nearest to the decimal that a float without a sign spells. -/
def magnitudeFloat? (negative : Bool) (spelling : List Char) : Option Binary64 :=
  let whole := spelling.takeWhile Char.isDigit
  match spelling.drop whole.length with
  | '.' :: cs => do
    let places := cs.takeWhile Char.isDigit
    let digits ← Numeral.value? 10 (whole ++ places)
    let exponent ← exponent? (cs.drop places.length)
    return .ofDecimal negative digits (exponent - places.length)
  | _ => none

def float? : List Char → Option Binary64
  | '-' :: spelling => magnitudeFloat? true spelling
  | spelling => magnitudeFloat? false spelling

def str? (spelling : List Char) : Option String := (Quoted.decode? spelling).map String.ofList

end BlockIR.Literal
