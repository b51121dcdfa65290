import LoadBearing.Comparison.Snapshot
import LoadBearing.Data.Number
import LoadBearing.Decimal.Binary

/-! # Comparing two revisions

Every routine present on both sides gets a verdict from the changes of its metrics and of its
archetypes.  A neutral one whose archetypes did not move is only counted.  What is listed comes in
groups: stressed routines by severity, new ones, improved ones, other changed ones, removed ones.
-/

namespace LoadBearing

/-- What a change of a routine means. -/
inductive Verdict where
  | stressed
  | improved
  | neutral
  deriving DecidableEq, Repr

def Verdict.word : Verdict → String
  | .stressed => "stressed"
  | .improved => "improved"
  | .neutral => "neutral"

/-- How far each metric moved. -/
structure Delta where
  complexity : Int := 0
  fanIn : Int := 0
  fanOut : Int := 0
  crossFanOut : Int := 0
  length : Int := 0
  deriving DecidableEq, Repr

namespace Delta

/-- The difference of two counts in the arithmetic of 64-bit words. -/
def step (before after : Nat) : Int :=
  Int.bmod ((after : Int) - before) (bitRange 64)

def between (before after : Snapshot) : Delta where
  complexity := step before.complexity after.complexity
  fanIn := step before.fanIn after.fanIn
  fanOut := step before.fanOut after.fanOut
  crossFanOut := step before.crossFanOut after.crossFanOut
  length := step before.length after.length

def complexityStep : Int := 3

def fanOutStep : Int := 2

def fanInStep : Int := 5

def crossStep : Int := 2

/-- Whether a metric grew so much that it counts. -/
def isStress (d : Delta) : Bool :=
  complexityStep ≤ d.complexity || fanOutStep ≤ d.fanOut || fanInStep ≤ d.fanIn
    || crossStep ≤ d.crossFanOut

/-- Whether a metric shrank so much that it counts. -/
def isRelief (d : Delta) : Bool :=
  d.complexity ≤ -complexityStep || d.fanOut ≤ -fanOutStep || d.fanIn ≤ -fanInStep
    || d.crossFanOut ≤ -crossStep

/-- The size of a change as a number, in the arithmetic of 64-bit words: the least word has no
    positive counterpart and keeps its sign. -/
def size (change : Int) : Float :=
  Float.ofInt (Int.bmod change.natAbs (bitRange 64))

/-- How heavy the changes are: complexity counts twice and incoming calls half. -/
def severity (d : Delta) : Float :=
  2.0 * size d.complexity + size d.fanOut + size d.crossFanOut + 0.5 * size d.fanIn

end Delta

inductive Fate where
  | added (after : Snapshot)
  | removed (before : Snapshot)
  | changed (before after : Snapshot)
  deriving DecidableEq, Repr

structure Difference where
  key : String
  fate : Fate
  deriving DecidableEq, Repr

namespace Difference

def before? (d : Difference) : Option Snapshot :=
  match d.fate with
  | .added _ => none
  | .removed before => some before
  | .changed before _ => some before

def after? (d : Difference) : Option Snapshot :=
  match d.fate with
  | .added after => some after
  | .removed _ => none
  | .changed _ after => some after

def status (d : Difference) : String :=
  match d.fate with
  | .added _ => "added"
  | .removed _ => "removed"
  | .changed _ _ => "changed"

/-- The changes of the metrics of a routine on both sides; none otherwise. -/
def delta (d : Difference) : Delta :=
  match d.fate with
  | .changed before after => .between before after
  | _ => {}

def severity (d : Difference) : Float :=
  match d.fate with
  | .changed before after => (Delta.between before after).severity
  | _ => 0.0

/-- The archetypes of a side, none for a missing one. -/
def archetypesOf (side : Option Snapshot) : List Archetype :=
  (side.map Snapshot.archetypes).getD []

def gained (d : Difference) : List Archetype :=
  (archetypesOf d.after?).filter fun a => !(archetypesOf d.before?).contains a

def lost (d : Difference) : List Archetype :=
  (archetypesOf d.before?).filter fun a => !(archetypesOf d.after?).contains a

def gainedConcerning (d : Difference) : Bool := d.gained.any Archetype.isConcerning

def lostConcerning (d : Difference) : Bool := d.lost.any Archetype.isConcerning

def verdict? (d : Difference) : Option Verdict :=
  match d.fate with
  | .changed _ _ =>
    if d.delta.isStress || d.gainedConcerning then some .stressed
    else if d.delta.isRelief || d.lostConcerning then some .improved
    else some .neutral
  | _ => none

def group (d : Difference) : Nat :=
  match d.fate, d.verdict? with
  | .added _, _ => 1
  | .removed _, _ => 4
  | .changed _ _, some .stressed => 0
  | .changed _ _, some .improved => 2
  | .changed _ _, _ => 3

/-- The order of listing: by group, within the stressed ones by severity, and within the new ones
    those with a concerning archetype first. -/
def le (left right : Difference) : Bool :=
  if left.group ≠ right.group then left.group < right.group
  else if left.group = 0 then Decimal.le right.severity left.severity
  else if left.group = 1 then left.gainedConcerning || !right.gainedConcerning
  else true

end Difference

structure ComparisonSummary where
  added : Nat := 0
  removed : Nat := 0
  stressed : Nat := 0
  improved : Nat := 0
  unchanged : Nat := 0
  deriving DecidableEq, Repr

structure Comparison where
  beforeName : String
  afterName : String
  differences : List Difference
  summary : ComparisonSummary
  deriving DecidableEq, Repr

namespace Comparison

/-- Whether a routine is more of a burden than before. -/
def hasStressed (c : Comparison) : Bool := 0 < c.summary.stressed

/-- A comparison under way: the totals so far, and what is listed so far in the order of the scans. -/
structure Tally where
  summary : ComparisonSummary := {}
  listed : List Difference := []
  deriving DecidableEq, Repr

namespace Tally

def list (t : Tally) (d : Difference) : Tally := { t with listed := t.listed ++ [d] }

def countAdded (t : Tally) : Tally :=
  { t with summary.added := t.summary.added + 1 }

def countRemoved (t : Tally) : Tally :=
  { t with summary.removed := t.summary.removed + 1 }

def countStressed (t : Tally) : Tally :=
  { t with summary.stressed := t.summary.stressed + 1 }

def countImproved (t : Tally) : Tally :=
  { t with summary.improved := t.summary.improved + 1 }

def countUnchanged (t : Tally) : Tally :=
  { t with summary.unchanged := t.summary.unchanged + 1 }

/-- A routine of both sides is counted by its verdict and listed, unless the verdict is neutral and
    the archetypes did not move. -/
def judge (t : Tally) (d : Difference) : Tally :=
  match d.verdict? with
  | some .stressed => t.countStressed.list d
  | some .improved => t.countImproved.list d
  | _ => if d.gained.isEmpty && d.lost.isEmpty then t.countUnchanged else t.list d

def arrive (before : Table Snapshot) (t : Tally) (entry : String × Snapshot) : Tally :=
  match before.find? entry.1 with
  | some old => t.judge ⟨entry.1, .changed old entry.2⟩
  | none => t.countAdded.list ⟨entry.1, .added entry.2⟩

/-- Only a routine that the later side does not have is new to the second scan. -/
def depart (after : Table Snapshot) (t : Tally) (entry : String × Snapshot) : Tally :=
  if after.has entry.1 then t else t.countRemoved.list ⟨entry.1, .removed entry.2⟩

end Tally

/-- One scan of the later side and one of the earlier side. -/
def tally (before after : Table Snapshot) : Tally :=
  before.foldl (Tally.depart after) (after.foldl (Tally.arrive before) {})

def compare (beforeName afterName : String) (before after : Table Snapshot) : Comparison :=
  let t := tally before after
  { beforeName := beforeName
    afterName := afterName
    differences := t.listed.mergeSort Difference.le
    summary := t.summary }

end Comparison

end LoadBearing
