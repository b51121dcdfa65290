import LoadBearing.CallGraph.Graph
import LoadBearing.Decimal.Binary

/-! # Bridges

A routine *bridges* module `A` to module `B` when it is called from `A` and calls into `B`, and both
differ from each other and from its own module.  The fewer routines bridge a pair of modules, the more the
connection depends on each of them: the *exclusivity* of a passage is one divided by their number.
-/

namespace LoadBearing

/-- A connection between two modules through one routine. -/
structure Passage where
  origin : String
  destination : String
  exclusivity : Float
  deriving Repr

/-- A routine that few others can replace as a connection of modules. -/
structure Bridge where
  id : String
  home : String
  /-- the highest exclusivity of a passage -/
  score : Float
  passages : List Passage
  deriving Repr

namespace Bridge

def threshold : Float := 0.5

structure Contacts where
  callers : List String := []
  callees : List String := []

def meet (g : CallGraph) (contacts : Table Contacts) (c : Call) : Table Contacts :=
  match c.target with
  | none => contacts
  | some target =>
    match g.home? c.source, g.home? target with
    | some sourceHome, some targetHome =>
      if sourceHome = targetHome then contacts
      else
        let outward := contacts.update c.source fun old =>
          let old := old.getD {}
          { old with callees := Roster.insert targetHome old.callees }
        outward.update target fun old =>
          let old := old.getD {}
          { old with callers := Roster.insert sourceHome old.callers }
    | _, _ => contacts

def contacts (g : CallGraph) : Table Contacts :=
  g.resolvedCalls.foldl (meet g) []

def Contacts.pairs (contacts : Contacts) : List (String × String) :=
  contacts.callers.flatMap fun origin =>
    (contacts.callees.filter fun destination => destination ≠ origin).map (Prod.mk origin)

def carriers (contacts : Table Contacts) (pair : String × String) : List String :=
  (contacts.filter fun entry => entry.2.pairs.contains pair).map Prod.fst

/-- The passages of a routine, the most exclusive first. -/
def passagesOf (contacts : Table Contacts) (own : Contacts) : List Passage :=
  let all := own.pairs.map fun pair =>
    { origin := pair.1
      destination := pair.2
      exclusivity := 1.0 / Float.ofNat (carriers contacts pair).length : Passage }
  let kept := all.filter fun passage => threshold ≤ passage.exclusivity
  kept.mergeSort fun left right => Decimal.le right.exclusivity left.exclusivity

/-- Higher scores first, then in order of identity. -/
def le (left right : Bridge) : Bool :=
  if Decimal.orderKey left.score = Decimal.orderKey right.score then textLe left.id right.id
  else Decimal.le right.score left.score

def all (g : CallGraph) : List Bridge :=
  let known := contacts g
  let bridges := known.filterMap fun entry =>
    match passagesOf known entry.2 with
    | [] => none
    | best :: rest =>
      some
        { id := entry.1
          home := (g.home? entry.1).getD ""
          score := best.exclusivity
          passages := best :: rest }
  bridges.mergeSort le

end Bridge

end LoadBearing
