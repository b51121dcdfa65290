import LoadBearing.CallGraph.Graph
import LoadBearing.Decimal.Binary

/-! # Distributions

What counts as much in a code base is measured by the code base itself: every metric is summarised
by percentiles of its values over all routines.  A percentile is a member of the sample, taken from
the sample in the total order of doubles.  That order is one of bits: it tells the two zeros apart,
and the values that are no numbers.
-/

namespace LoadBearing

/-- A form in which doubles are given: the bits, which tell any two apart and order them, the number
    that is added up, and the zero. -/
structure DoubleForm (α : Type) where
  bits : α → UInt64
  eq_of_bits : ∀ x y, bits x = bits y → x = y
  number : α → Float
  zero : α

namespace DoubleForm

variable {α : Type}

def key (form : DoubleForm α) (x : α) : Int :=
  Decimal.wordKey (form.bits x)

def le (form : DoubleForm α) (x y : α) : Bool :=
  form.key x ≤ form.key y

def native : DoubleForm Float where
  bits := Float.toBits
  eq_of_bits := by
    rintro ⟨⟨bits, valid⟩⟩ ⟨⟨_, _⟩⟩ same
    cases same
    rfl
  number := id
  zero := 0.0

end DoubleForm

structure Summary (α : Type) where
  p50 : α
  p75 : α
  p85 : α
  p90 : α
  p95 : α
  max : α
  mean : Float
  count : Nat
  deriving Repr

namespace Summary

variable {α : Type} (form : DoubleForm α)

def zero : Summary α :=
  ⟨form.zero, form.zero, form.zero, form.zero, form.zero, form.zero, 0.0, 0⟩

def ordered (values : List α) : List α :=
  values.mergeSort form.le

/-- The rank of a percentile in a sample of the given size, not yet cut off at the last one. -/
def place (share : Float) (count : Nat) : Nat :=
  (share * Float.ofNat (count - 1)).toUInt64.toNat

def rank (share : Float) (count : Nat) : Nat :=
  min (place share count) (count - 1)

def percentile (sorted : List α) (share : Float) : α :=
  sorted.getD (rank share sorted.length) form.zero

/-- The sum from left to right, from the neutral `-0`. -/
def sum (values : List α) : Float :=
  values.foldl (fun total x => total + form.number x) (-0.0)

def of (values : List α) : Summary α :=
  if values.isEmpty then zero form
  else
    let sorted := ordered form values
    { p50 := percentile form sorted 0.50
      p75 := percentile form sorted 0.75
      p85 := percentile form sorted 0.85
      p90 := percentile form sorted 0.90
      p95 := percentile form sorted 0.95
      max := sorted.getLastD form.zero
      mean := sum form sorted / Float.ofNat sorted.length
      count := sorted.length }

end Summary

abbrev Distribution := Summary Float

def Distribution.ofValues (values : List Float) : Distribution :=
  Summary.of .native values

structure Profile where
  fanIn : Distribution
  fanOut : Distribution
  complexity : Distribution
  length : Distribution
  params : Distribution
  crossFanOut : Distribution
  crossRatio : Distribution
  deriving Repr

def Profile.of (g : CallGraph) : Profile :=
  let all := g.routines.filterMap fun r => g.metrics? r.id
  let ofMetric (metric : Metrics → Float) := Distribution.ofValues (all.map metric)
  { fanIn := ofMetric fun m => Float.ofNat m.fanIn
    fanOut := ofMetric fun m => Float.ofNat m.fanOut
    complexity := ofMetric fun m => Float.ofNat m.complexity
    length := ofMetric fun m => Float.ofNat m.length
    params := ofMetric fun m => Float.ofNat m.params
    crossFanOut := ofMetric fun m => Float.ofNat m.crossFanOut
    crossRatio := ofMetric fun m => m.crossRatio }

/-- Keeps a value within two bounds; what is not a number stays so. -/
def clamp (low high x : Float) : Float :=
  if x < low then low else if high < x then high else x

/-- The place of a value between a floor and a top, from 0 to 1; zero if the range is empty or not
    finite. -/
def relativeRank (value floor top : Float) : Float :=
  let range := top - floor
  if range ≤ 0.0 || !range.isFinite then 0.0 else clamp 0.0 1.0 ((value - floor) / range)

end LoadBearing
