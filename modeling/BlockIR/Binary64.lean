/-!
# Double-precision numbers

A double is its 64 bits. Every finite one is a whole number of units of 2^-1074, so order and rounding
are questions about natural numbers.
-/

namespace BlockIR

/-- A double-precision number, by its bits. -/
structure Binary64 where
  bits : UInt64
deriving DecidableEq

namespace Binary64

/-- The highest of the 64 bits. -/
def signBit : Nat := Nat.pow 2 63

/-- The leading bit of a significand, above the 52 bits of the fraction. -/
def leadingBit : Nat := Nat.pow 2 52

/-- How many units of 2^-1074 there are in one. -/
def unitsInOne : Nat := Nat.pow 2 1074

def negative (x : Binary64) : Bool := signBit ≤ x.bits.toNat

/-- The eleven exponent bits. -/
def exponentField (x : Binary64) : Nat := x.bits.toNat / leadingBit % 2048

/-- The low 52 bits. -/
def fraction (x : Binary64) : Nat := x.bits.toNat % leadingBit

def isFinite (x : Binary64) : Bool := x.exponentField < 2047

def isInfinite (x : Binary64) : Bool := x.exponentField = 2047 && x.fraction = 0

def isNaN (x : Binary64) : Bool := x.exponentField = 2047 && x.fraction ≠ 0

/-- How far the significand of a finite number is shifted above the unit 2^-1074. -/
def shift (x : Binary64) : Nat := x.exponentField - 1

/-- The significand of a finite number, with its leading bit. -/
def significand (x : Binary64) : Nat :=
  if x.exponentField = 0 then x.fraction else leadingBit + x.fraction

/-- The size of a finite number in units of 2^-1074. -/
def units (x : Binary64) : Nat := x.significand * Nat.pow 2 x.shift

/-- The bits of infinity without its sign. -/
def infinityBits : Nat := 2047 * leadingBit

/-- Puts a sign on the low 63 bits. -/
def ofMagnitude (negative : Bool) (magnitude : Nat) : Binary64 :=
  ⟨UInt64.ofNat (if negative then signBit + magnitude else magnitude)⟩

def infinity (negative : Bool) : Binary64 := ofMagnitude negative infinityBits

def zero (negative : Bool) : Binary64 := ofMagnitude negative 0

/-- The quotient rounded to the nearest whole number, a half to the even one. -/
def roundQuotient (n d : Nat) : Nat :=
  let q := n / d
  let r := 2 * (n % d)
  if r < d then q else if d < r then q + 1 else q + q % 2

/-- The double nearest to `n / d` units, a half to the even significand; one that would need a larger
exponent than there is becomes infinite. -/
def ofUnits (negative : Bool) (n d : Nat) : Binary64 :=
  let s := (n / d).log2 - 52
  ofMagnitude negative (min infinityBits (s * leadingBit + roundQuotient n (d * Nat.pow 2 s)))

/-- The double nearest to `digits` times a power of ten. Sizes far outside the range of doubles are
settled by the number of digits alone. -/
def ofDecimal (negative : Bool) (digits : Nat) (exponent : Int) : Binary64 :=
  if digits = 0 then zero negative
  else
    let order := exponent + (Nat.toDigits 10 digits).length
    if 400 < order then infinity negative
    else if order < -400 then zero negative
    else if 0 ≤ exponent then ofUnits negative (digits * Nat.pow 10 exponent.toNat * unitsInOne) 1
    else ofUnits negative (digits * unitsInOne) (Nat.pow 10 (-exponent).toNat)

/-- The double nearest to a whole number. -/
def ofInt (n : Int) : Binary64 := ofDecimal (n < 0) n.natAbs 0

end Binary64

end BlockIR
