import LoadBearing.Decimal.Binary

/-! # Numbers with a fixed number of places

The exact binary value is rounded to the wanted places; a half goes to the even neighbour.
-/

namespace LoadBearing.Decimal

def padLeft (width : Nat) (fill : Char) (text : String) : String :=
  String.ofList (List.replicate (width - text.length) fill) ++ text

def padRight (width : Nat) (fill : Char) (text : String) : String :=
  text ++ String.ofList (List.replicate (width - text.length) fill)

/-- A whole number of units of `10 ^ (-places)`, with the point set. -/
def setPoint (places units : Nat) : String :=
  if places = 0 then toString units
  else
    toString (units / tenTo places) ++ "." ++ padLeft places '0' (toString (units % tenTo places))

def fixed (places : Nat) (x : Float) : String :=
  match Binary.ofFloat x with
  | .nan => "NaN"
  | .infinite negative => if negative then "-inf" else "inf"
  | .finite negative mantissa exponent =>
    let units := roundDiv (mantissa * tenTo places * bitRange exponent.toNat)
      (bitRange (-exponent).toNat)
    (if negative then "-" else "") ++ setPoint places units

end LoadBearing.Decimal
