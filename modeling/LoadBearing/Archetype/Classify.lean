import LoadBearing.Archetype.Crossing
import LoadBearing.Archetype.Isolation
import LoadBearing.Archetype.Load
import LoadBearing.Archetype.Past

/-! # Classification

Every enabled detector is run on every routine.  The findings about a routine are ordered by
confidence; equally sure ones stay in the order of the archetypes.
-/

namespace LoadBearing

def Archetype.detector : Archetype → Detector
  | .boss => Detector.boss
  | .workhorse => Detector.workhorse
  | .gossip => Detector.gossip
  | .hermit => Detector.hermit
  | .stranger => Detector.stranger
  | .overloaded => Detector.overloaded
  | .ghost => Detector.ghost
  | .crisisPoint => Detector.crisisPoint
  | .codependent => Detector.codependent
  | .bridge => Detector.bridge

def Archetype.enabled (disabled : List Archetype) : List Archetype :=
  all.filter fun archetype => !disabled.contains archetype

structure Finding where
  archetype : Archetype
  detection : Detection
  deriving Repr

namespace Finding

def confidence (f : Finding) : Float := f.detection.confidence

/-- Surer findings first. -/
def le (left right : Finding) : Bool :=
  Decimal.le right.confidence left.confidence

def about (enabled : List Archetype) (e : Evidence) (r : Routine) : List Finding :=
  let found := enabled.filterMap fun archetype =>
    (archetype.detector e r).map (Finding.mk archetype)
  found.mergeSort le

/-- The findings about all routines by identity; of routines with one identity the last counts. -/
def all (enabled : List Archetype) (e : Evidence) : Table (List Finding) :=
  Table.ofList (e.graph.routines.map fun r => (r.id, about enabled e r))

end Finding

end LoadBearing
