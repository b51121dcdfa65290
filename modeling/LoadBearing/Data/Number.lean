/-! # Powers and sums

The powers that bound fixed-width numbers and scale decimals, and sums of counts.
-/

namespace LoadBearing

/-- How many values so many bits can have. -/
def bitRange (bits : Nat) : Nat := Nat.pow 2 bits

/-- A one followed by so many zeros. -/
def tenTo (zeros : Nat) : Nat := Nat.pow 10 zeros

def total (counts : List Nat) : Nat := counts.foldr (· + ·) 0

end LoadBearing
