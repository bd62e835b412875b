import BlockIR.Binary64

/-!
# Shortest decimals

The shortest decimal that reads back as a given double, and its text: among decimals of the least
number of digits the one nearest to the double, the larger of two that are equally near.
-/

namespace BlockIR.Binary64

/-- A positive decimal, `digits * 10 ^ exponent`. -/
structure Decimal where
  digits : Nat
  exponent : Int

namespace Decimal

def reads (d : Decimal) (x : Binary64) : Bool := ofDecimal false d.digits d.exponent = x

/-- Drops trailing zeros, at most as many as the fuel says. -/
def trimWith : Nat → Decimal → Decimal
  | 0, d => d
  | fuel + 1, d =>
    if d.digits ≠ 0 ∧ d.digits % 10 = 0 then trimWith fuel ⟨d.digits / 10, d.exponent + 1⟩ else d

def trim (d : Decimal) : Decimal := trimWith 400 d

end Decimal

/-- The two neighbours of `n / d` on the grid of multiples of `10 ^ e`, and whether the upper one is at
least as near as the lower one. -/
def neighbours (n d : Nat) (e : Int) : Nat × Nat × Bool :=
  let n' := if 0 ≤ e then n else n * Nat.pow 10 (-e).toNat
  let d' := if 0 ≤ e then d * Nat.pow 10 e.toNat else d
  let q := n' / d'
  (q, q + 1, d' ≤ 2 * (n' % d'))

/-- The nearest point of the grid of multiples of `10 ^ e` that reads back as `x`, if there is one. -/
def onGrid? (x : Binary64) (n d : Nat) (e : Int) : Option Decimal :=
  let (lo, hi, up) := neighbours n d e
  let loReads := Decimal.reads ⟨lo, e⟩ x
  let hiReads := Decimal.reads ⟨hi, e⟩ x
  if hiReads && (up || !loReads) then some ⟨hi, e⟩
  else if loReads then some ⟨lo, e⟩
  else none

/-- A power of ten just above `n / d`: the quotient is less than `10 ^ e`, and at least a tenth of that
unless it is a power of ten itself. -/
def decimalOrder (n d : Nat) : Int :=
  if d ≤ n then (Nat.toDigits 10 (n / d)).length else 1 - ((Nat.toDigits 10 (d / n)).length : Int)

/-- The shortest decimal that reads back as a positive finite double: 17 digits always do. -/
def shortest (x : Binary64) : Decimal :=
  let n := x.units
  let d := unitsInOne
  let order := decimalOrder n d
  let found := (List.range 17).findSome? fun (k : Nat) => onGrid? x n d (order - 1 - k)
  (found.getD ⟨n * Nat.pow 5 1074, -1074⟩).trim

/-- A double whose size is outside this range is written with an exponent. -/
def isPlain (d : Decimal) : Bool :=
  let order := d.exponent + (Nat.toDigits 10 d.digits).length
  order ≤ 16 && -4 < order

/-- The digits with a point, and at least one digit on each side of it. -/
def plainText (d : Decimal) : String :=
  let ds := Nat.toDigits 10 d.digits
  if 0 ≤ d.exponent then
    String.ofList (ds ++ List.replicate d.exponent.toNat '0') ++ ".0"
  else
    let places := (-d.exponent).toNat
    let padded := List.replicate (places + 1 - ds.length) '0' ++ ds
    let whole := padded.length - places
    String.ofList (padded.take whole) ++ "." ++ String.ofList (padded.drop whole)

/-- One digit, a point, the other digits or a zero, and the power of ten. -/
def exponentText (d : Decimal) : String :=
  let ds := Nat.toDigits 10 d.digits
  let exponent := d.exponent + (ds.length - 1 : Nat)
  let rest := if ds.length ≤ 1 then ['0'] else ds.drop 1
  String.ofList (ds.take 1) ++ "." ++ String.ofList rest ++ "e" ++ toString exponent

/-- The text of a double. -/
def toText (x : Binary64) : String :=
  if x.isNaN then "NaN"
  else
    let sign := if x.negative then "-" else ""
    if x.isInfinite then sign ++ "inf"
    else if x.units = 0 then sign ++ "0.0"
    else
      let d := shortest (ofMagnitude false (x.bits.toNat % signBit))
      sign ++ if isPlain d then plainText d else exponentText d

end BlockIR.Binary64
