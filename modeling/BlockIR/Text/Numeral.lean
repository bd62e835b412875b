/-!
# Numerals

The value of a run of digits in a radix, and the digits of a value.
-/

namespace BlockIR.Numeral

/-- The value of a digit, if it is one in this radix. -/
def digit? (radix : Nat) (c : Char) : Option Nat :=
  let value? :=
    if '0' ≤ c ∧ c ≤ '9' then some (c.toNat - '0'.toNat)
    else if 'a' ≤ c ∧ c ≤ 'z' then some (c.toNat - 'a'.toNat + 10)
    else if 'A' ≤ c ∧ c ≤ 'Z' then some (c.toNat - 'A'.toNat + 10)
    else none
  value?.filter (· < radix)

/-- The value of a run of digits that follows digits of value `n`. -/
def extend? (radix : Nat) : Nat → List Char → Option Nat
  | n, [] => some n
  | n, c :: cs => (digit? radix c).bind fun d => extend? radix (n * radix + d) cs

/-- The value of a run of one or more digits. -/
def value? (radix : Nat) : List Char → Option Nat
  | [] => none
  | cs => extend? radix 0 cs

/-- The value of a run of one or more digits, if it is below a bound. -/
def below? (bound radix : Nat) (cs : List Char) : Option Nat := (value? radix cs).filter (· < bound)

end BlockIR.Numeral
