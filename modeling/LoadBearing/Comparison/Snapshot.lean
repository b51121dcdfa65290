import LoadBearing.Archetype.Basic
import LoadBearing.CallGraph.Graph

/-! # Snapshots

What a comparison needs to know about one routine at one revision.  The key of a snapshot is made of
the file and the qualified name, so it survives changes that move the routine within its file.
-/

namespace LoadBearing

structure Snapshot where
  key : String
  /-- the identity in the call graph of that revision -/
  id : String
  file : String
  home : String
  line : Nat
  complexity : Nat
  fanIn : Nat
  fanOut : Nat
  crossFanOut : Nat
  length : Nat
  /-- in the order of `Archetype.all`, each at most once -/
  archetypes : List Archetype
  deriving DecidableEq, Repr

/-- The archetypes of a list, each once and in the order of `Archetype.all`. -/
def Archetype.inOrder (list : List Archetype) : List Archetype :=
  all.filter list.contains

def Snapshot.of (g : CallGraph) (key : String) (r : Routine) (archetypes : List Archetype) :
    Snapshot where
  key := key
  id := r.id
  file := r.file
  home := r.home
  line := r.line
  complexity := r.complexity
  fanIn := g.fanIn r.id
  fanOut := g.fanOut r.id
  crossFanOut := g.crossFanOut r.id
  length := r.length
  archetypes := Archetype.inOrder archetypes

def Routine.place (r : Routine) : String :=
  r.file ++ "::" ++ r.qualified

/-- The key of a routine that is the given one in number at its place. -/
def Snapshot.keyOf (place : String) (number : Nat) : String :=
  if number = 1 then place else place ++ "#" ++ toString number

/-- The snapshots of a list of routines, where `seen` counts the earlier ones at each place. -/
def Snapshot.collect (g : CallGraph) (archetypes : String → List Archetype) (seen : Table Nat) :
    List Routine → List Snapshot
  | [] => []
  | r :: rest =>
    let seen := seen.update r.place fun count => count.getD 0 + 1
    let number := (seen.find? r.place).getD 0
    Snapshot.of g (keyOf r.place number) r (archetypes r.id) :: collect g archetypes seen rest

/-- The snapshots of all routines of a graph by key.  Routines at one place keep their order: the
    second is numbered 2, the third 3. -/
def Snapshot.all (g : CallGraph) (archetypes : String → List Archetype) : Table Snapshot :=
  Table.ofList ((collect g archetypes [] g.routines).map fun s => (s.key, s))

end LoadBearing
