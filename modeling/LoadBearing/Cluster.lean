import LoadBearing.CallGraph.Graph
import LoadBearing.Data.Number

/-! # Clusters

Groups of routines that call each other more than they call the rest.  The groups come from *label
propagation* on the undirected view of the known calls: every routine starts with its own identity
as label, and in each pass the routines, in order of identity, adopt the label most frequent among
their neighbours.  Labels change in place, so a routine sees what its neighbours adopted earlier in
the same pass.  The neighbourhood is a table of rosters: it depends only on which routines are
linked, not on how often or in which direction they call.
-/

namespace LoadBearing

abbrev Neighbourhood := Table (List String)

namespace Neighbourhood

/-- Makes the two ends of a known call neighbours; a routine that calls itself gets none by it. -/
def link (near : Neighbourhood) (c : Call) : Neighbourhood :=
  match c.target with
  | none => near
  | some target =>
    if c.source = target then near
    else
      let join (table : Neighbourhood) (one other : String) : Neighbourhood :=
        table.update one fun roster => Roster.insert other (roster.getD [])
      join (join near c.source target) target c.source

/-- The neighbourhood of a call graph: every routine has an entry, connected or not. -/
def of (g : CallGraph) : Neighbourhood :=
  g.resolvedCalls.foldl link (g.routines.foldl (fun near r => Table.insertNew near r.id []) [])

def around (near : Neighbourhood) (id : String) : List String :=
  (Table.find? near id).getD []

end Neighbourhood

/-! ## Label propagation -/

namespace Labels

def occurrences (labels : List String) : Table Nat :=
  labels.foldl (fun counts label => counts.update label fun count => count.getD 0 + 1) []

/-- A label wins against those that are rarer, and against larger ones that are equally frequent. -/
def outranks (one other : String × Nat) : Bool :=
  other.2 < one.2 || (one.2 = other.2 && one.1 < other.1)

/-- The next label takes the lead unless the leader outranks it. -/
def challenge (leader : Option (String × Nat)) (entry : String × Nat) : Option (String × Nat) :=
  match leader with
  | none => some entry
  | some best => if outranks best entry then some best else some entry

def leader? (counts : List (String × Nat)) : Option (String × Nat) :=
  counts.foldl challenge none

/-- The most frequent of some labels, the smallest among equally frequent ones. -/
def favourite? (labels : List String) : Option String :=
  (leader? (occurrences labels)).map Prod.fst

/-- One routine adopts the favourite label of its neighbours, if it has any. -/
def adopt (near : Neighbourhood) (labels : Table String) (id : String) : Table String :=
  match favourite? ((near.around id).filterMap labels.find?) with
  | none => labels
  | some label => labels.insert id label

def pass (near : Neighbourhood) (labels : Table String) : Table String :=
  (Table.keys near).foldl (adopt near) labels

/-- At most `passes` passes, fewer if one changes nothing. -/
def settle (near : Neighbourhood) (passes : Nat) (labels : Table String) : Table String :=
  match passes with
  | 0 => labels
  | passes + 1 =>
    let next := pass near labels
    if next = labels then labels else settle near passes next

def start (near : Neighbourhood) : Table String :=
  (Table.keys near).map fun id => (id, id)

end Labels

/-! ## Clusters -/

structure ClusterSearch where
  minSize : Nat := 3
  maxPasses : Nat := 15
  deriving Repr

structure Cluster where
  /-- the position among the clusters -/
  id : Nat
  label : String
  members : List String
  modules : List String
  internalEdges : Nat
  /-- the share of the pairs of members that are neighbours -/
  density : Float
  /-- up to three members with the most neighbours inside -/
  hubs : List String
  deriving Repr

namespace Cluster

def size (c : Cluster) : Nat := c.members.length

def isMultiModule (c : Cluster) : Bool := 1 < c.modules.length

def degree (near : Neighbourhood) (members : List String) (id : String) : Nat :=
  (near.around id).countP members.contains

/-- More neighbours first, then in order of identity. -/
def rankLe (left right : String × Nat) : Bool :=
  right.2 < left.2 || (left.2 = right.2 && textLe left.1 right.1)

def describe (g : CallGraph) (near : Neighbourhood) (label : String) (members : List String) :
    Cluster :=
  let degrees := members.map fun id => (id, degree near members id)
  let edges := total (degrees.map Prod.snd) / 2
  let pairs := members.length * (members.length - 1) / 2
  { id := 0
    label := label
    members := members
    modules := Roster.ofList (members.filterMap g.home?)
    internalEdges := edges
    density := if pairs = 0 then 0.0 else Float.ofNat edges / Float.ofNat pairs
    hubs := ((degrees.mergeSort rankLe).take 3).map Prod.fst }

/-- Clusters over several modules first, then larger ones, then in order of the label. -/
def le (left right : Cluster) : Bool :=
  if left.isMultiModule != right.isMultiModule then left.isMultiModule
  else if left.size ≠ right.size then right.size < left.size
  else textLe left.label right.label

end Cluster

namespace ClusterSearch

def labels (search : ClusterSearch) (g : CallGraph) : Table String :=
  let near := Neighbourhood.of g
  Labels.settle near search.maxPasses (Labels.start near)

def groups (labels : Table String) : Table (List String) :=
  labels.foldl (fun groups entry =>
    groups.update entry.2 fun members => members.getD [] ++ [entry.1]) []

def run (search : ClusterSearch) (g : CallGraph) : List Cluster :=
  let near := Neighbourhood.of g
  let large := (groups (search.labels g)).filter fun group => search.minSize ≤ group.2.length
  let clusters := large.map fun group => Cluster.describe g near group.1 group.2
  (clusters.mergeSort Cluster.le).zipIdx.map fun (cluster, position) =>
    { cluster with id := position }

end ClusterSearch

end LoadBearing
