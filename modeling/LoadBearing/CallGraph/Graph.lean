import LoadBearing.CallGraph.Basic

/-! # The call graph

A *draft* collects routines and calls in any order and with no checks.  `Draft.freeze` turns it into
a `CallGraph`: the same two lists, with three indices over them.  Every later question about a
routine goes through an index; the indices list positions in insertion order, so an answer is the
part of the list that a scan would have found.
-/

namespace LoadBearing

/-- Routines and calls before they are indexed. -/
structure Draft where
  routines : List Routine := []
  calls : List Call := []
  deriving Repr

def Draft.addRoutine (d : Draft) (r : Routine) : Draft :=
  { d with routines := d.routines ++ [r] }

/-- Adds a call; its target need not be there yet. -/
def Draft.addCall (d : Draft) (c : Call) : Draft :=
  { d with calls := d.calls ++ [c] }

/-- Routines and calls with the indices over them. -/
structure CallGraph where
  routines : List Routine
  calls : List Call
  /-- the position of the first routine with an identity -/
  byId : Table Nat
  /-- the positions of the calls that lead to an identity -/
  incoming : Table (List Nat)
  /-- the positions of the calls that leave an identity -/
  outgoing : Table (List Nat)
  deriving Repr

namespace CallGraph

/-- Adds a position at the end of the list stored under a key. -/
def file (index : Table (List Nat)) (key : String) (position : Nat) : Table (List Nat) :=
  index.update key fun positions => positions.getD [] ++ [position]

/-- The positions of routines by identity; the first routine with an identity keeps it. -/
def indexRoutines (routines : List Routine) : Table Nat :=
  routines.zipIdx.foldl (fun index (r, position) => index.insertNew r.id position) []

def indexOutgoing (calls : List Call) : Table (List Nat) :=
  calls.zipIdx.foldl (fun index (c, position) => file index c.source position) []

def indexIncoming (calls : List Call) : Table (List Nat) :=
  calls.zipIdx.foldl (fun index (c, position) =>
    match c.target with
    | some target => file index target position
    | none => index) []

end CallGraph

def Draft.freeze (d : Draft) : CallGraph where
  routines := d.routines
  calls := d.calls
  byId := CallGraph.indexRoutines d.routines
  incoming := CallGraph.indexIncoming d.calls
  outgoing := CallGraph.indexOutgoing d.calls

structure Metrics where
  fanIn : Nat
  fanOut : Nat
  crossFanOut : Nat
  crossRatio : Float
  complexity : Nat
  length : Nat
  params : Nat
  deriving Repr

namespace CallGraph

def ofParts (routines : List Routine) (calls : List Call) : CallGraph :=
  Draft.freeze ⟨routines, calls⟩

def routine? (g : CallGraph) (id : String) : Option Routine := do
  let position ← g.byId.find? id
  g.routines[position]?

def callsAt (g : CallGraph) (positions : Option (List Nat)) : List Call :=
  (positions.getD []).filterMap fun position => g.calls[position]?

def callsTo (g : CallGraph) (id : String) : List Call :=
  g.callsAt (g.incoming.find? id)

def callsFrom (g : CallGraph) (id : String) : List Call :=
  g.callsAt (g.outgoing.find? id)

def fanIn (g : CallGraph) (id : String) : Nat :=
  ((g.incoming.find? id).getD []).length

def fanOut (g : CallGraph) (id : String) : Nat :=
  ((g.outgoing.find? id).getD []).length

def crossFanOut (g : CallGraph) (id : String) : Nat :=
  (g.callsFrom id).countP Call.leavesModule

/-- The share of the calls of an identity that leave its module; zero without calls. -/
def crossRatio (g : CallGraph) (id : String) : Float :=
  if g.fanOut id = 0 then 0.0
  else Float.ofNat (g.crossFanOut id) / Float.ofNat (g.fanOut id)

def metrics? (g : CallGraph) (id : String) : Option Metrics :=
  (g.routine? id).map fun r =>
    { fanIn := g.fanIn id
      fanOut := g.fanOut id
      crossFanOut := g.crossFanOut id
      crossRatio := g.crossRatio id
      complexity := r.complexity
      length := r.length
      params := r.params }

def home? (g : CallGraph) (id : String) : Option String :=
  (g.routine? id).map Routine.home

def resolvedCalls (g : CallGraph) : List Call :=
  g.calls.filter Call.resolved

def modules (g : CallGraph) : List String :=
  Roster.ofList (g.routines.map Routine.home)

def files (g : CallGraph) : List String :=
  Roster.ofList (g.routines.map Routine.file)

def unresolvedCount (g : CallGraph) : Nat :=
  g.calls.countP fun c => !c.resolved

/-- How many calls each rule resolved; rules that resolved none are left out. -/
def ruleCounts (g : CallGraph) : List (Rule × Nat) :=
  Rule.all.filterMap fun rule =>
    let count := g.resolvedCalls.countP fun c => c.rule = some rule
    if count = 0 then none else some (rule, count)

end CallGraph

end LoadBearing
