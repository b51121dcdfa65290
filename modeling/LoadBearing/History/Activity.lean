import LoadBearing.History.Commit
import LoadBearing.History.PathIndex

/-! # The activity around routines

A commit *touches* a routine when one of its changed ranges meets the routine's span.  The activity
of a routine sums the commits that touch it, and counts for every other routine the commits that
touch both.  A commit that touches very many routines says little about any pair of them, so it is
left out of the pair counts.
-/

namespace LoadBearing

/-- The share of a part in a whole; no share of nothing. -/
def ratio (part whole : Nat) : Float :=
  if whole = 0 then 0.0 else Float.ofNat part / Float.ofNat whole

structure Activity where
  commits : Nat := 0
  fixes : Nat := 0
  authors : List String := []
  firstSeen : Int := 0
  lastSeen : Int := 0
  /-- for other routines, the number of commits that touch both -/
  together : Table Nat := []
  deriving DecidableEq, Repr

namespace Activity

def fixRatio (a : Activity) : Float :=
  ratio a.fixes a.commits

def record (a : Activity) (c : Commit) : Activity :=
  { a with
    commits := a.commits + 1
    fixes := if c.isFix then a.fixes + 1 else a.fixes
    authors := Roster.insert c.author a.authors
    firstSeen := if a.commits = 0 then c.date else min a.firstSeen c.date
    lastSeen := if a.commits = 0 then c.date else max a.lastSeen c.date }

/-- The activity with one more commit shared with each of the given routines. -/
def share (a : Activity) (others : List String) : Activity :=
  { a with
    together := others.foldl (fun counts other =>
      counts.update other fun count => count.getD 0 + 1) a.together }

end Activity

structure ActivitySummary where
  commits : Nat := 0
  fixes : Nat := 0
  /-- commits that touch too many routines to count pairs -/
  broad : Nat := 0
  routinesTouched : Nat := 0
  deriving DecidableEq, Repr

/-- The history of a code base, told by routine. -/
structure ActivityLog where
  activities : Table Activity := []
  summary : ActivitySummary := {}
  deriving DecidableEq, Repr

namespace ActivityLog

def touched (g : CallGraph) (index : PathIndex) (c : Commit) : List String :=
  Roster.ofList (c.changes.flatMap fun change =>
    match index.resolve? change.file with
    | none => []
    | some file =>
      let hit := g.routines.filter fun r =>
        r.file = file && change.ranges.any fun range => r.overlaps range.start range.stop
      hit.map Routine.id)

def recordAll (activities : Table Activity) (c : Commit) (ids : List String) : Table Activity :=
  ids.foldl (fun table id => table.update id fun old => (old.getD {}).record c) activities

def shareAll (activities : Table Activity) (ids : List String) : Table Activity :=
  ids.foldl (fun table id =>
    table.update id fun old => (old.getD {}).share (ids.filter (· ≠ id))) activities

def add (g : CallGraph) (index : PathIndex) (limit : Nat) (log : ActivityLog) (c : Commit) :
    ActivityLog :=
  let ids := touched g index c
  let summary := log.summary
  let summary :=
    { summary with
      commits := summary.commits + 1
      fixes := if c.isFix then summary.fixes + 1 else summary.fixes }
  let activities := recordAll log.activities c ids
  if limit < ids.length then ⟨activities, { summary with broad := summary.broad + 1 }⟩
  else ⟨shareAll activities ids, summary⟩

/-- The log of a list of commits; a commit that touches more than `limit` routines counts for no
    pair. -/
def correlate (g : CallGraph) (index : PathIndex) (commits : List Commit) (limit : Nat) :
    ActivityLog :=
  let log := commits.foldl (add g index limit) {}
  { log with summary := { log.summary with routinesTouched := log.activities.length } }

def activity? (log : ActivityLog) (id : String) : Option Activity :=
  log.activities.find? id

section Companions

/- How a share is written down is left open: as a double when the program runs, exactly when two
shares are compared on paper. -/
variable {α : Type} (share : Nat → Nat → α)

/-- The commits that touch both of two routines, as a share of the commits of the less active one;
    zero if one of them was never touched. -/
def correlationBy (log : ActivityLog) (one other : String) : α :=
  match log.activity? one, log.activity? other with
  | some a, some b => share ((a.together.find? other).getD 0) (min a.commits b.commits)
  | _, _ => share 0 0

structure Companion (α : Type) where
  id : String
  correlation : α
  together : Nat
  deriving Repr

/-- The routines with enough common commits, in order of identity. -/
def candidatesBy (log : ActivityLog) (id : String) (least : Nat) : List (Companion α) :=
  match log.activity? id with
  | none => []
  | some a =>
    (a.together.filter fun entry => least ≤ entry.2).map fun entry =>
      ⟨entry.1, log.correlationBy share id entry.1, entry.2⟩

variable [LT α] [DecidableLT α]

/-- The candidate if it is closer than the best one so far. -/
def closer (best : Option (Companion α)) (candidate : Companion α) : Option (Companion α) :=
  match best with
  | none => some candidate
  | some leader => if leader.correlation < candidate.correlation then some candidate else best

/-- The closest candidate; of equally close ones the first. -/
def companionBy? (log : ActivityLog) (id : String) (least : Nat) : Option (Companion α) :=
  (log.candidatesBy share id least).foldl closer none

def inseparable? (floor : α) (log : ActivityLog) (id : String) (least : Nat) :
    Option (Companion α) :=
  (log.companionBy? share id least).filter fun c => ¬ c.correlation < floor

end Companions

def correlation (log : ActivityLog) (one other : String) : Float :=
  log.correlationBy ratio one other

def companion? (log : ActivityLog) (id : String) (least : Nat) : Option (Companion Float) :=
  log.companionBy? ratio id least

structure Hotspot where
  id : String
  commits : Nat
  fixes : Nat
  authors : Nat
  deriving DecidableEq, Repr

/-- More fixes first, then more commits, then in order of identity. -/
def Hotspot.le (left right : Hotspot) : Bool :=
  if left.fixes ≠ right.fixes then right.fixes < left.fixes
  else if left.commits ≠ right.commits then right.commits < left.commits
  else textLe left.id right.id

def hotspots (log : ActivityLog) (limit : Nat) : List Hotspot :=
  let spots := log.activities.map fun entry =>
    { id := entry.1
      commits := entry.2.commits
      fixes := entry.2.fixes
      authors := entry.2.authors.length : Hotspot }
  (spots.mergeSort Hotspot.le).take limit

end ActivityLog

end LoadBearing
