import LoadBearing.Archetype.Basic
import LoadBearing.Bridge
import LoadBearing.CallGraph.Reach
import LoadBearing.Decimal.Fixed
import LoadBearing.History.Activity
import LoadBearing.Stats

/-! # Detections

A *detector* looks at one routine and says whether it plays one archetype, how surely, and why.  It
measures the routine against the profile of the whole code base.  Confidence always ends up between
zero and one.
-/

namespace LoadBearing

/-- What a detection says beyond its reasons. -/
inductive Detail where
  | plain
  | codependent (partner : String) (correlation : Float) (together : Nat)
  | crisisPoint (commits fixes authors : Nat)
  | bridge (passages : List Passage)
  deriving Repr

structure Detection where
  confidence : Float
  reasons : List String
  detail : Detail
  deriving Repr

/-- The confidence kept of a computed one: between zero and one, and zero for what is not finite. -/
def Detection.confidenceOf (x : Float) : Float :=
  if x.isFinite then clamp 0.0 1.0 x else 0.0

def Detection.detailed (confidence : Float) (reasons : List String) (detail : Detail) :
    Detection :=
  ⟨confidenceOf confidence, reasons, detail⟩

def Detection.of (confidence : Float) (reasons : List String) : Detection :=
  detailed confidence reasons .plain

structure Evidence where
  graph : CallGraph
  profile : Profile
  /-- the history, when it could be read -/
  log : Option ActivityLog
  bridges : Table Bridge
  /-- the fewest common commits that make a companion -/
  minTogether : Nat

/-- The bridges by identity; of two with one identity the later counts. -/
def Evidence.indexBridges (bridges : List Bridge) : Table Bridge :=
  Table.ofList (bridges.map fun bridge => (bridge.id, bridge))

abbrev Detector := Evidence → Routine → Option Detection

namespace Detector

/-- The larger of two numbers; what is not a number gives way to the other. -/
def larger (x y : Float) : Float := if x.isNaN || x < y then y else x

def whole (x : Float) : String := Decimal.fixed 0 x

def percent (ratio : Float) : String := whole (ratio * 100.0) ++ "%"

def listed (names : List String) : String := ", ".intercalate names

def homes (g : CallGraph) (ids : List String) : List String :=
  Roster.ofList (ids.filterMap g.home?)

end Detector

end LoadBearing
