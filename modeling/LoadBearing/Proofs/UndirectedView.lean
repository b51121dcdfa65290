import Mathlib.Data.Sym.Sym2
import LoadBearing.Proofs.ClusterMeasure

/-! # Clustering sees undirected calls only

A neighbourhood is a normal form.  Its entries are the routines and the ends of known calls, each
roster lists the routines that one of them is linked to, and both are in order.  Graphs with the same
nodes and the same links have the same neighbourhood, whatever the order, the number and the
direction of their calls, and labels are made from the neighbourhood alone.

A cluster takes one thing more from the graph, the modules of its members.  These are looked up by
identity, so the order of the routines shows only where two routines share an identity.
-/

namespace LoadBearing

open Neighbourhood (Linked IsNode)

/-! ## Pairs of routines -/

/-- The two ends of a known call, without its direction. -/
def Call.ends? (c : Call) : Option (Sym2 String) :=
  if c.resolved then c.target.map fun target => s(c.source, target) else none

/-- The pairs of different routines that known calls join. -/
def Call.joined (calls : List Call) : Finset (Sym2 String) :=
  (calls.filterMap Call.ends?).toFinset.filter fun pair => ¬ pair.IsDiag

theorem Call.ends?_eq_some_iff {c : Call} {one other : String} :
    c.ends? = some s(one, other) ↔ c.resolved = true ∧
      (c.source = one ∧ c.target = some other ∨ c.source = other ∧ c.target = some one) := by
  rw [Call.ends?]
  cases c.resolved with
  | false => simp
  | true => cases c.target <;> simp

namespace Neighbourhood

variable {g h : CallGraph}

theorem linked_iff_mem_joined {one other : String} :
    Linked g one other ↔ s(one, other) ∈ Call.joined g.calls := by
  simp only [Linked, Joins, Call.joined, Finset.mem_filter, List.mem_toFinset, List.mem_filterMap,
    Call.ends?_eq_some_iff, Sym2.mk_isDiag_iff]
  constructor
  · rintro ⟨c, member, resolved, different, ends⟩
    exact ⟨⟨c, member, resolved, ends⟩, different⟩
  · rintro ⟨⟨c, member, resolved, ends⟩, different⟩
    exact ⟨c, member, resolved, different, ends⟩

/-! ## The normal form -/

theorem find?_eq_around {near : Neighbourhood} {id : String} (node : id ∈ Table.keys near) :
    Table.find? near id = some (near.around id) := by
  obtain ⟨roster, found⟩ := Table.mem_keys_iff.1 node
  rw [around, found, Option.getD_some]

theorem of_eq_of_same (nodes : ∀ id, IsNode g id ↔ IsNode h id)
    (links : ∀ one other, Linked g one other ↔ Linked h one other) : of g = of h := by
  have simple := simple_of g
  have otherSimple := simple_of h
  refine Table.Ordered.ext simple.ordered otherSimple.ordered fun id => ?_
  by_cases node : id ∈ Table.keys (of g)
  · have otherNode : id ∈ Table.keys (of h) := by
      rwa [mem_keys_of, ← nodes, ← mem_keys_of]
    have rosters : (of g).around id = (of h).around id :=
      Roster.Ordered.ext (simple.rosters id) (otherSimple.rosters id) fun name => by
        rw [mem_around_of, mem_around_of, links]
    rw [find?_eq_around node, find?_eq_around otherNode, rosters]
  · have otherAbsent : id ∉ Table.keys (of h) := by
      rwa [mem_keys_of, ← nodes, ← mem_keys_of]
    rw [Table.find?_eq_none_iff.2 node, Table.find?_eq_none_iff.2 otherAbsent]

/-- Graphs with the same routines and the same joined pairs have one neighbourhood. -/
theorem of_eq_of_joined (routines : ∀ r, r ∈ g.routines ↔ r ∈ h.routines)
    (pairs : Call.joined g.calls = Call.joined h.calls) : of g = of h := by
  have links : ∀ one other, Linked g one other ↔ Linked h one other := fun one other => by
    rw [linked_iff_mem_joined, linked_iff_mem_joined, pairs]
  refine of_eq_of_same (fun id => ?_) links
  simp only [IsNode, routines, links]

end Neighbourhood

/-! ## Modules of routines in another order -/

namespace CallGraph

variable {routines others : List Routine}

theorem find?_id_eq_of_perm (unique : (routines.map Routine.id).Nodup)
    (shuffled : routines.Perm others) (id : String) :
    (routines.find? fun r => r.id = id) = others.find? fun r => r.id = id := by
  have otherUnique : (others.map Routine.id).Nodup :=
    (shuffled.map Routine.id).nodup_iff.1 unique
  cases found : routines.find? fun r => r.id = id with
  | none =>
    rw [List.find?_eq_none] at found
    rw [eq_comm, List.find?_eq_none]
    exact fun r member => found r (shuffled.mem_iff.2 member)
  | some r =>
    obtain rfl : r.id = id := by simpa using List.find?_some found
    have member := shuffled.mem_iff.1 (List.mem_of_find?_eq_some found)
    exact (find?_id_of_mem otherUnique member).symm

theorem home?_eq_of_perm (unique : (routines.map Routine.id).Nodup)
    (shuffled : routines.Perm others) (calls otherCalls : List Call) :
    (ofParts routines calls).home? = (ofParts others otherCalls).home? := by
  funext id
  rw [home?, home?, routine?_ofParts, routine?_ofParts, find?_id_eq_of_perm unique shuffled]

end CallGraph

/-! ## Clusters -/

namespace ClusterSearch

variable {g h : CallGraph}

theorem labels_eq_of_near (near : Neighbourhood.of g = Neighbourhood.of h)
    (search : ClusterSearch) : search.labels g = search.labels h := by
  rw [labels, labels, near]

theorem describe_eq_of_home? (homes : g.home? = h.home?) (near : Neighbourhood) (label : String)
    (members : List String) :
    Cluster.describe g near label members = Cluster.describe h near label members := by
  rw [Cluster.describe, Cluster.describe, homes]

/-- Clusters are made from the neighbourhood and the modules. -/
theorem run_eq_of_near (near : Neighbourhood.of g = Neighbourhood.of h) (homes : g.home? = h.home?)
    (search : ClusterSearch) : search.run g = search.run h := by
  have unsortedSame : search.unsorted g = search.unsorted h := by
    rw [unsorted, unsorted, labels_eq_of_near near, near]
    exact List.map_congr_left fun group _ => describe_eq_of_home? homes _ _ _
  rw [run_eq, run_eq, unsortedSame]

/-- Clustering sees the undirected call relation only.  With routines in another order, and with
    any calls that join the same pairs of different routines, labels and clusters are the same. -/
theorem run_depends_on_joined_pairs (search : ClusterSearch) {routines others : List Routine}
    {calls otherCalls : List Call} (unique : (routines.map Routine.id).Nodup)
    (shuffled : routines.Perm others) (pairs : Call.joined calls = Call.joined otherCalls) :
    search.labels (.ofParts routines calls) = search.labels (.ofParts others otherCalls) ∧
      search.run (.ofParts routines calls) = search.run (.ofParts others otherCalls) := by
  have near : Neighbourhood.of (.ofParts routines calls)
      = Neighbourhood.of (.ofParts others otherCalls) :=
    Neighbourhood.of_eq_of_joined (fun _ => shuffled.mem_iff) pairs
  have homes := CallGraph.home?_eq_of_perm unique shuffled calls otherCalls
  exact ⟨labels_eq_of_near near search, run_eq_of_near near homes search⟩

namespace Sample

def trio : List Routine :=
  ["a", "b", "c"].map fun name => .ofDefinition name "m.js" (.spanning name .function 1 1)

def call (source target : String) : Call :=
  .known source target target none "m.js" 1 false .sameFile

def chain : List Call := [call "a" "b", call "b" "c"]

/-- The chain turned around, one call of it twice, with a call of itself and one of nobody known. -/
def chainBack : List Call :=
  [call "c" "b", call "b" "b", .unknown "a" "log" none "m.js" 2, call "b" "a", call "c" "b"]

end Sample

open Sample in
theorem run_depends_on_joined_pairs_chain :
    ((trio.map Routine.id).Nodup ∧ trio.Perm trio.reverse ∧
      Call.joined chain = Call.joined chainBack) ∧
    ({} : ClusterSearch).labels (.ofParts trio chain) = [("a", "b"), ("b", "b"), ("c", "b")] ∧
    ({} : ClusterSearch).labels (.ofParts trio chain)
      = ({} : ClusterSearch).labels (.ofParts trio.reverse chainBack) ∧
    ({} : ClusterSearch).run (.ofParts trio chain)
      = ({} : ClusterSearch).run (.ofParts trio.reverse chainBack) := by
  have unique : (trio.map Routine.id).Nodup := by decide
  have shuffled : trio.Perm trio.reverse := (List.reverse_perm trio).symm
  have pairs : Call.joined chain = Call.joined chainBack := by decide
  exact ⟨⟨unique, shuffled, pairs⟩, by decide +kernel,
    run_depends_on_joined_pairs {} unique shuffled pairs⟩

end ClusterSearch

end LoadBearing
