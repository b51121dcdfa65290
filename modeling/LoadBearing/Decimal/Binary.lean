import LoadBearing.Data.Number

/-! # The binary form of a number

A finite double is a whole number times a power of two.  Everything that prints or orders doubles
starts from this form, read off the bits.
-/

namespace LoadBearing.Decimal

inductive Binary where
  | nan
  | infinite (negative : Bool)
  /-- `mantissa · 2 ^ exponent`, with the sign beside it -/
  | finite (negative : Bool) (mantissa : Nat) (exponent : Int)
  deriving DecidableEq, Repr

def Binary.ofFloat (x : Float) : Binary :=
  let bits : Nat := x.toBits.toNat
  let negative := bits / bitRange 63 = 1
  let biased : Nat := bits / bitRange 52 % bitRange 11
  let fraction : Nat := bits % bitRange 52
  if biased = bitRange 11 - 1 then
    if fraction = 0 then .infinite negative else .nan
  else if biased = 0 then .finite negative fraction (-1074)
  else .finite negative (bitRange 52 + fraction) ((biased : Int) - 1075)

/-- The position of a double in the total order of doubles, given its bits: negative numbers below
    positive ones, `-0` below `0`, and the values that are no numbers at the two ends. -/
def wordKey (word : UInt64) : Int :=
  let bits : Nat := word.toNat
  if bits < bitRange 63 then bits else bitRange 63 - 1 - bits

def orderKey (x : Float) : Int :=
  wordKey x.toBits

def le (x y : Float) : Bool :=
  orderKey x ≤ orderKey y

/-- The quotient rounded to a whole number, a half going to the even neighbour. -/
def roundDiv (num den : Nat) : Nat :=
  let quotient := num / den
  let twice := 2 * (num % den)
  if twice < den then quotient
  else if den < twice then quotient + 1
  else if quotient % 2 = 0 then quotient else quotient + 1

/-- The nearest whole number, a half going up, cut off at the bounds of a 64-bit word. -/
def nearestWord (x : Float) : Nat :=
  match Binary.ofFloat x with
  | .nan => 0
  | .infinite negative => if negative then 0 else bitRange 64 - 1
  | .finite negative mantissa exponent =>
    let scale := bitRange (-exponent).toNat
    let whole := (2 * (mantissa * bitRange exponent.toNat) + scale) / (2 * scale)
    if negative then 0 else min whole (bitRange 64 - 1)

end LoadBearing.Decimal
