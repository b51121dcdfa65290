import LoadBearing.Decimal.Fixed

/-! # The shortest decimal that reads back

Every finite double is the nearest double to all the reals of an interval around it.  Its shortest
form is the decimal with the fewest digits in that interval, and the nearest to the double of those.
On the grid of decimals with a given number of digits only the two neighbours of the double can
qualify, so seventeen pairs of candidates are tried in exact arithmetic.
-/

namespace LoadBearing.Decimal

/-- A decimal number `digits · 10 ^ exponent`. -/
structure Scaled where
  digits : Nat
  exponent : Int
  deriving DecidableEq, Repr

def digitCount (n : Nat) : Nat :=
  (Nat.toDigits 10 n).length

/-- Drops the zeros at the end of the digits; at most `fuel` of them. -/
def Scaled.strip : Nat → Scaled → Scaled
  | 0, d => d
  | fuel + 1, d =>
    if d.digits % 10 = 0 then strip fuel ⟨d.digits / 10, d.exponent + 1⟩ else d

/-- A positive double as quarters of its unit in the last place, with the ends of its interval. -/
structure Interval where
  low : Nat
  value : Nat
  high : Nat
  /-- the power of two that a quarter stands for -/
  exponent : Int
  /-- whether the ends belong to the interval -/
  closed : Bool

/-- The interval of reals that round to `mantissa · 2 ^ exponent`.  Below a power of two the
    neighbour is only half as far away. -/
def Interval.around (mantissa : Nat) (exponent : Int) : Interval where
  low := if mantissa = bitRange 52 && exponent ≠ -1074 then 4 * mantissa - 1 else 4 * mantissa - 2
  value := 4 * mantissa
  high := 4 * mantissa + 2
  exponent := exponent - 2
  closed := mantissa % 2 = 0

/-- `a · 2 ^ e` against `b · 10 ^ f`: the two sides brought to whole numbers. -/
def crossScale (a : Nat) (e : Int) (b : Nat) (f : Int) : Nat × Nat :=
  (a * bitRange e.toNat * tenTo (-f).toNat, b * tenTo f.toNat * bitRange (-e).toNat)

def Interval.contains (i : Interval) (d : Scaled) : Bool :=
  let (low, atLow) := crossScale i.low i.exponent d.digits d.exponent
  let (high, atHigh) := crossScale i.high i.exponent d.digits d.exponent
  if i.closed then low ≤ atLow && atHigh ≤ high else low < atLow && atHigh < high

/-- The candidate with steps of `10 ^ exponent`: of the two neighbours of the value on that grid
    the nearer one in the interval, the even one if both are equally near. -/
def Interval.candidate? (i : Interval) (exponent : Int) : Option Scaled :=
  let (num, den) := crossScale i.value i.exponent 1 exponent
  let below : Scaled := ⟨num / den, exponent⟩
  let above : Scaled := ⟨num / den + 1, exponent⟩
  let nearest : Scaled := ⟨roundDiv num den, exponent⟩
  if i.contains nearest then some nearest
  else if i.contains below then some below
  else if i.contains above then some above
  else none

/-- The position of the first digit: the number is at least `10 ^ (magnitude - 1)` and less than
    `10 ^ magnitude`. -/
def magnitude (mantissa : Nat) (exponent : Int) : Int :=
  let scaled := mantissa * tenTo 400 * bitRange exponent.toNat / bitRange (-exponent).toNat
  (digitCount scaled : Int) - 400

def shortest (mantissa : Nat) (exponent : Int) : Scaled :=
  let interval := Interval.around mantissa exponent
  let top := magnitude mantissa exponent
  let found := (List.range 17).findSome? fun (k : Nat) => interval.candidate? (top - (k + 1))
  (found.getD ⟨mantissa, exponent⟩).strip 17

/-! ## Writing a decimal -/

/-- Where positional notation ends: numbers from `10 ^ (lowest - 1)` up to `10 ^ highest` are
    written without an exponent. -/
structure Positional where
  lowest : Int
  highest : Int
  deriving Repr

/-- Positional from `0.00001` up to sixteen digits before the point. -/
def Positional.report : Positional := ⟨-4, 16⟩

def Scaled.write (style : Positional) (d : Scaled) : String :=
  let digits := toString d.digits
  let count := digits.length
  let point : Int := count + d.exponent
  let zeros (n : Int) := String.ofList (List.replicate n.toNat '0')
  if 0 ≤ d.exponent && point ≤ style.highest then digits ++ zeros d.exponent ++ ".0"
  else if 0 < point && point ≤ style.highest then
    String.ofList (digits.toList.take point.toNat) ++ "." ++
      String.ofList (digits.toList.drop point.toNat)
  else if style.lowest ≤ point && point ≤ 0 then "0." ++ zeros (-point) ++ digits
  else
    let lead := String.ofList (digits.toList.take 1)
    let tail := if count = 1 then "" else "." ++ String.ofList (digits.toList.drop 1)
    let power := point - 1
    lead ++ tail ++ "e" ++ (if power < 0 then "-" else "+") ++ toString power.natAbs

def text? (x : Float) : Option String :=
  match Binary.ofFloat x with
  | .finite negative mantissa exponent =>
    let size := if mantissa = 0 then "0.0" else (shortest mantissa exponent).write .report
    some ((if negative then "-" else "") ++ size)
  | _ => none

end LoadBearing.Decimal
