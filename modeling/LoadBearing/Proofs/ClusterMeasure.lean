import Mathlib.Combinatorics.SimpleGraph.DegreeSum
import LoadBearing.Proofs.CallIndex
import LoadBearing.Proofs.LabelPropagation
import LoadBearing.Proofs.Sorting

/-! # Clusters are the large label groups, measured

Every cluster consists of the routines that carry one label, and every label with enough carriers
has a cluster.  What is told about a cluster is true of the undirected graph that the known calls
make among its members.

The non-trivial ingredient is `total_linksInto`.  The internal edges come from halving a sum of
degrees, which is right because being linked is symmetric, no routine is linked to itself, and a
roster names each neighbour once: the degrees are then those of a simple graph.
-/

namespace LoadBearing

open Neighbourhood (Linked IsNode)

/-! ## The undirected view -/

namespace CallGraph

/-- The undirected graph of the known calls between different routines. -/
def undirected (g : CallGraph) : SimpleGraph String where
  Adj := Linked g
  symm := ⟨fun _ _ ⟨c, member, resolved, different, ends⟩ =>
    ⟨c, member, resolved, different.symm, ends.symm⟩⟩
  loopless := ⟨fun _ ⟨_, _, _, different, _⟩ => different rfl⟩

/-- The part of the undirected graph that lies among some routines. -/
def among (g : CallGraph) (ids : List String) : SimpleGraph {id | id ∈ ids} :=
  g.undirected.induce {id | id ∈ ids}

variable {g : CallGraph} {ids : List String}

instance (c : Call) (one other : String) : Decidable (Neighbourhood.Joins c one other) :=
  inferInstanceAs (Decidable (_ ∧ _))

instance (one other : String) : Decidable (Linked g one other) :=
  inferInstanceAs (Decidable (∃ c ∈ g.calls, _))

instance : DecidableRel (g.among ids).Adj := fun one other =>
  inferInstanceAs (Decidable (Linked g one other))

instance : Fintype {id | id ∈ ids} := inferInstanceAs (Fintype {id // id ∈ ids})

@[simp] theorem among_adj {one other : {id | id ∈ ids}} :
    (g.among ids).Adj one other ↔ Linked g one other := Iff.rfl

def linksInto (g : CallGraph) (ids : List String) (id : String) : Nat :=
  ids.countP fun other => Linked g id other

theorem card_among (nodup : ids.Nodup) : Fintype.card {id | id ∈ ids} = ids.length := by
  rw [← List.toFinset_card_of_nodup nodup]
  exact Fintype.card_of_subtype _ fun id => by simp

theorem degree_among (nodup : ids.Nodup) (v : {id | id ∈ ids}) :
    (g.among ids).degree v = g.linksInto ids v := by
  have named : ((g.among ids).neighborFinset v).map (.subtype _)
      = (ids.filter fun other => Linked g v other).toFinset := by
    ext other
    simp [and_comm]
  rw [linksInto, List.countP_eq_length_filter, ← List.toFinset_card_of_nodup (nodup.filter _),
    ← named, Finset.card_map, SimpleGraph.card_neighborFinset_eq_degree]

/-- Every edge among some routines is a link of both its ends. -/
theorem total_linksInto (nodup : ids.Nodup) :
    total (ids.map (g.linksInto ids)) = 2 * Nat.card (g.among ids).edgeSet := by
  have degrees := (g.among ids).sum_degrees_eq_twice_card_edges
  simp only [degree_among nodup] at degrees
  rw [Nat.card_eq_fintype_card, ← SimpleGraph.edgeFinset_card, ← degrees]
  calc total (ids.map (g.linksInto ids))
      = ∑ id ∈ ids.toFinset, g.linksInto ids id := (List.sum_toFinset _ nodup).symm
    _ = ∑ v : {id | id ∈ ids}, g.linksInto ids v := Finset.sum_subtype _ (by simp) _

theorem card_edgeSet_among_le (nodup : ids.Nodup) :
    Nat.card (g.among ids).edgeSet ≤ ids.length * (ids.length - 1) / 2 := by
  rw [Nat.card_eq_fintype_card, ← SimpleGraph.edgeFinset_card, ← Nat.choose_two_right,
    ← card_among nodup]
  exact SimpleGraph.card_edgeFinset_le_card_choose_two

end CallGraph

/-! ## What is told about a group -/

namespace Cluster

/-- Ahead among the members of a group: more links inside, then the smaller identity. -/
def Outranks (g : CallGraph) (members : List String) (one other : String) : Prop :=
  g.linksInto members other < g.linksInto members one ∨
    g.linksInto members one = g.linksInto members other ∧ one < other

/-- What is told about a cluster is true of its members. -/
structure Measured (g : CallGraph) (c : Cluster) : Prop where
  ordered : Roster.Ordered c.members
  spread : c.isMultiModule = true ↔ ∃ one ∈ c.members, ∃ other ∈ c.members, ∃ home away,
    g.home? one = some home ∧ g.home? other = some away ∧ home ≠ away
  edges : c.internalEdges = Nat.card (g.among c.members).edgeSet
  edges_le : c.internalEdges ≤ c.size * (c.size - 1) / 2
  hubs : ∃ ranked : List String, ranked.Perm c.members ∧ ranked.Pairwise (Outranks g c.members) ∧
    c.hubs = ranked.take 3 ∧ c.hubs.length = min 3 c.size

variable {g : CallGraph} {members : List String}

theorem degree_eq_linksInto (nodup : members.Nodup) (id : String) :
    degree (Neighbourhood.of g) members id = g.linksInto members id := by
  have roster := ((Neighbourhood.simple_of g).rosters id).nodup
  rw [degree, CallGraph.linksInto, List.countP_eq_length_filter, List.countP_eq_length_filter]
  -- Neighbours that are members, and members that are neighbours: neither list repeats a name.
  refine List.Perm.length_eq ?_
  rw [List.perm_ext_iff_of_nodup (roster.filter _) (nodup.filter _)]
  intro other
  simp [List.mem_filter, Neighbourhood.mem_around_of, and_comm]

theorem degrees_eq (nodup : members.Nodup) :
    (members.map fun id => (id, degree (Neighbourhood.of g) members id))
      = members.map fun id => (id, g.linksInto members id) :=
  List.map_congr_left fun id _ => by rw [degree_eq_linksInto nodup]

theorem internalEdges_describe (nodup : members.Nodup) (label : String) :
    (describe g (Neighbourhood.of g) label members).internalEdges
      = Nat.card (g.among members).edgeSet := by
  have counted := CallGraph.total_linksInto (g := g) nodup
  show total ((members.map fun id => (id, degree _ members id)).map Prod.snd) / 2 = _
  rw [degrees_eq nodup, List.map_map]
  show total (members.map (g.linksInto members)) / 2 = _
  omega

/-- The place of a member with its degree, as a value of a linear order. -/
def rank (entry : String × Nat) : ℕᵒᵈ ×ₗ String :=
  toLex (OrderDual.toDual entry.2, entry.1)

theorem rankLe_iff (left right : String × Nat) :
    rankLe left right = true ↔ rank left ≤ rank right := by
  simp [rankLe, rank, Prod.Lex.toLex_le_toLex, textLe_iff]

theorem rank_lt_iff {left right : String × Nat} :
    rank left < rank right ↔ right.2 < left.2 ∨ left.2 = right.2 ∧ left.1 < right.1 := by
  simp [rank, Prod.Lex.toLex_lt_toLex]

theorem hubs_describe (ordered : Roster.Ordered members) (label : String) :
    ∃ ranked : List String, ranked.Perm members ∧ ranked.Pairwise (Outranks g members) ∧
      (describe g (Neighbourhood.of g) label members).hubs = ranked.take 3 := by
  let degrees := members.map fun id => (id, g.linksInto members id)
  refine ⟨(degrees.mergeSort rankLe).map Prod.fst, ?_, ?_, ?_⟩
  · refine ((List.mergeSort_perm degrees rankLe).map Prod.fst).trans ?_
    rw [List.map_map]
    exact .of_eq (List.map_id _)
  · have inOrder : degrees.Pairwise fun left right => left.1 < right.1 :=
      List.pairwise_map.2 ordered
    rw [List.pairwise_map]
    refine (pairwise_mergeSort_stable rankLe_iff inOrder).imp_of_mem ?_
    intro left right leftMember rightMember below
    -- A sorted entry still shows the degree of the member it names.
    obtain ⟨one, -, rfl⟩ := List.mem_map.1 (List.mem_mergeSort.1 leftMember)
    obtain ⟨other, -, rfl⟩ := List.mem_map.1 (List.mem_mergeSort.1 rightMember)
    rcases below with less | ⟨equal, less⟩
    · exact rank_lt_iff.1 less
    · refine .inr ⟨?_, less⟩
      simpa [rank] using congrArg (fun place => (ofLex place).1) equal
  · rw [← List.map_take]
    show ((List.mergeSort _ rankLe).take 3).map Prod.fst = _
    rw [degrees_eq ordered.nodup]

theorem isMultiModule_describe (label : String) :
    (describe g (Neighbourhood.of g) label members).isMultiModule = true ↔
      ∃ one ∈ members, ∃ other ∈ members, ∃ home away,
        g.home? one = some home ∧ g.home? other = some away ∧ home ≠ away := by
  have nodup := (Roster.ordered_ofList (members.filterMap g.home?)).nodup
  rw [isMultiModule, decide_eq_true_iff]
  show 1 < (Roster.ofList (members.filterMap g.home?)).length ↔ _
  rw [← List.toFinset_card_of_nodup nodup, Finset.one_lt_card]
  simp only [List.mem_toFinset, Roster.mem_ofList, List.mem_filterMap]
  constructor
  · rintro ⟨home, ⟨one, oneMember, oneHome⟩, away, ⟨other, otherMember, otherHome⟩, different⟩
    exact ⟨one, oneMember, other, otherMember, home, away, oneHome, otherHome, different⟩
  · rintro ⟨one, oneMember, other, otherMember, home, away, oneHome, otherHome, different⟩
    exact ⟨home, ⟨one, oneMember, oneHome⟩, away, ⟨other, otherMember, otherHome⟩, different⟩

theorem measured_describe (ordered : Roster.Ordered members) (label : String) :
    Measured g (describe g (Neighbourhood.of g) label members) := by
  have edges := internalEdges_describe (g := g) ordered.nodup label
  obtain ⟨ranked, shuffled, ranking, hubs⟩ := hubs_describe (g := g) ordered label
  refine ⟨ordered, isMultiModule_describe label, edges, ?_, ranked, shuffled, ranking, hubs, ?_⟩
  · rw [edges]
    exact CallGraph.card_edgeSet_among_le ordered.nodup
  · rw [hubs, List.length_take, shuffled.length_eq]
    rfl

/-! ## The order of clusters -/

/-- Ahead among the clusters: over several modules first, then the larger one, then the one with the
    smaller label. -/
def Precedes (left right : Cluster) : Prop :=
  left.isMultiModule = true ∧ right.isMultiModule = false ∨
    left.isMultiModule = right.isMultiModule ∧
      (right.size < left.size ∨ left.size = right.size ∧ left.label < right.label)

/-- The place of a cluster, as a value of a linear order. -/
def place (c : Cluster) : Bool ×ₗ (ℕᵒᵈ ×ₗ String) :=
  toLex (!c.isMultiModule, toLex (OrderDual.toDual c.size, c.label))

theorem le_iff (left right : Cluster) : le left right = true ↔ place left ≤ place right := by
  rw [le, place, place, Prod.Lex.toLex_le_toLex, Prod.Lex.toLex_le_toLex]
  by_cases same : left.size = right.size
  · cases left.isMultiModule <;> cases right.isMultiModule <;> simp [same, textLe_iff]
  · cases left.isMultiModule <;> cases right.isMultiModule <;> simp [same]

theorem place_lt_iff {left right : Cluster} : place left < place right ↔ Precedes left right := by
  rw [Precedes, place, place, Prod.Lex.toLex_lt_toLex, Prod.Lex.toLex_lt_toLex]
  cases left.isMultiModule <;> cases right.isMultiModule <;> simp

end Cluster

/-! ## Label groups -/

namespace Labels

def carriers (labels : Table String) (label : String) : List String :=
  (labels.filter fun entry => entry.2 = label).map Prod.fst

variable {labels : Table String} {label : String}

theorem mem_carriers (ordered : Table.Ordered labels) {id : String} :
    id ∈ carriers labels label ↔ labels.find? id = some label := by
  constructor
  · intro member
    obtain ⟨⟨key, own⟩, kept, rfl⟩ := List.mem_map.1 member
    obtain ⟨stored, same⟩ := List.mem_filter.1 kept
    rw [ordered.find?_of_mem stored]
    simpa using same
  · intro found
    exact List.mem_map.2 ⟨(id, label), List.mem_filter.2 ⟨Table.mem_of_find? found, by simp⟩, rfl⟩

theorem ordered_carriers (ordered : Table.Ordered labels) (label : String) :
    Roster.Ordered (carriers labels label) :=
  ordered.sublist (List.filter_sublist.map Prod.fst)

theorem length_carriers (ordered : Table.Ordered labels) (label : String) :
    (carriers labels label).length
      = (Table.keys labels).countP fun id => labels.find? id = some label := by
  rw [carriers, List.length_map, ← List.countP_eq_length_filter, Table.keys, List.countP_map]
  refine List.countP_congr fun entry member => ?_
  simp [ordered.find?_of_mem member]

end Labels

namespace ClusterSearch

open Labels (carriers)

theorem groups_eq (labels : Table String) :
    groups labels = labels.foldl (Table.enlist (fun entry => some entry.2) Prod.fst) [] := rfl

theorem ordered_groups (labels : Table String) : Table.Ordered (groups labels) :=
  Table.Ordered.foldl (fun _ entry ordered => ordered.update entry.2 _) labels Table.ordered_nil

theorem mem_groups {labels : Table String} {label : String} {members : List String} :
    (label, members) ∈ groups labels ↔ members = carriers labels label ∧ members ≠ [] := by
  have listed : ((groups labels).find? label).getD [] = carriers labels label := by
    rw [groups_eq, Table.getD_find?_foldl_enlist Table.ordered_nil]
    simp [carriers]
  have used : label ∈ (groups labels).keys ↔ carriers labels label ≠ [] := by
    rw [groups_eq, Table.mem_keys_foldl_enlist]
    simp [carriers]
  constructor
  · intro member
    have found := (ordered_groups labels).find?_of_mem member
    rw [found, Option.getD_some] at listed
    exact ⟨listed, listed ▸ used.1 (List.mem_map_of_mem member)⟩
  · rintro ⟨rfl, some⟩
    obtain ⟨members, found⟩ := Table.mem_keys_iff.1 (used.2 some)
    rw [found, Option.getD_some] at listed
    exact listed ▸ Table.mem_of_find? found

def unsorted (search : ClusterSearch) (g : CallGraph) : List Cluster :=
  ((groups (search.labels g)).filter fun group => search.minSize ≤ group.2.length).map fun group =>
    Cluster.describe g (Neighbourhood.of g) group.1 group.2

variable {search : ClusterSearch} {g : CallGraph} {c : Cluster}

theorem run_eq : search.run g = ((search.unsorted g).mergeSort Cluster.le).zipIdx.map
    fun entry => { entry.1 with id := entry.2 } := rfl

theorem mem_unsorted :
    c ∈ search.unsorted g ↔ ∃ label,
      c = Cluster.describe g (Neighbourhood.of g) label (carriers (search.labels g) label) ∧
      carriers (search.labels g) label ≠ [] ∧
      search.minSize ≤ (carriers (search.labels g) label).length := by
  rw [unsorted, List.mem_map]
  constructor
  · rintro ⟨⟨label, members⟩, kept, rfl⟩
    obtain ⟨grouped, large⟩ := List.mem_filter.1 kept
    obtain ⟨rfl, used⟩ := mem_groups.1 grouped
    exact ⟨label, rfl, used, by simpa using large⟩
  · rintro ⟨label, rfl, used, large⟩
    exact ⟨(label, _), List.mem_filter.2 ⟨mem_groups.2 ⟨rfl, used⟩, by simpa using large⟩, rfl⟩

theorem ordered_unsorted (search : ClusterSearch) (g : CallGraph) :
    (search.unsorted g).Pairwise fun left right => left.label < right.label := by
  have keys := List.pairwise_map.1 (ordered_groups (search.labels g))
  exact List.pairwise_map.2 (keys.filter _)

/-- What a cluster of a run is: its number apart, the description of the carriers of its label. -/
theorem describes_of_mem_run (member : c ∈ search.run g) :
    c = { Cluster.describe g (Neighbourhood.of g) c.label (carriers (search.labels g) c.label) with
          id := c.id } ∧
      c.members ≠ [] ∧ search.minSize ≤ c.size := by
  rw [run_eq] at member
  obtain ⟨⟨d, position⟩, kept, rfl⟩ := List.mem_map.1 member
  have sorted := List.mem_of_getElem? (List.mem_zipIdx_iff_getElem?.1 kept)
  obtain ⟨label, rfl, used, large⟩ := mem_unsorted.1 (List.mem_mergeSort.1 sorted)
  exact ⟨rfl, used, large⟩

theorem exists_mem_run {label : String} {members : List String}
    (listed : carriers (search.labels g) label = members) (used : members ≠ [])
    (large : search.minSize ≤ members.length) :
    ∃ position, { Cluster.describe g (Neighbourhood.of g) label members with id := position }
      ∈ search.run g := by
  subst listed
  have member := mem_unsorted.2 ⟨label, rfl, used, large⟩
  obtain ⟨position, here⟩ := List.getElem?_of_mem (List.mem_mergeSort.2 member)
  rw [run_eq]
  exact ⟨position, List.mem_map.2 ⟨(_, position), List.mem_zipIdx_iff_getElem?.2 here, rfl⟩⟩

theorem labelling_labels (search : ClusterSearch) (g : CallGraph) :
    Labels.Labelling (Neighbourhood.of g) (search.labels g) :=
  Labels.labelling_midway (Neighbourhood.simple_of g) search.maxPasses 0

theorem isNode_iff (search : ClusterSearch) {id : String} :
    IsNode g id ↔ ∃ label, (search.labels g).find? id = some label := by
  rw [← Table.mem_keys_iff, (labelling_labels search g).nodes, Neighbourhood.mem_keys_of]

theorem members_of_mem_run (member : c ∈ search.run g) :
    c.members = carriers (search.labels g) c.label := by
  rw [(describes_of_mem_run member).1]
  rfl

theorem mem_members_iff (member : c ∈ search.run g) {id : String} :
    id ∈ c.members ↔ (search.labels g).find? id = some c.label := by
  rw [members_of_mem_run member]
  exact Labels.mem_carriers (labelling_labels search g).ordered

theorem measured_of_mem_run (member : c ∈ search.run g) : c.Measured g := by
  have ordered := Labels.ordered_carriers (labelling_labels search g).ordered c.label
  have measured := Cluster.measured_describe (g := g) ordered c.label
  rw [(describes_of_mem_run member).1]
  exact ⟨measured.ordered, measured.spread, measured.edges, measured.edges_le, measured.hubs⟩

theorem exists_mem_members_iff (search : ClusterSearch) {id : String} :
    (∃ c ∈ search.run g, id ∈ c.members) ↔ IsNode g id ∧
      search.minSize ≤ (Table.keys (search.labels g)).countP
        fun other => (search.labels g).find? other = (search.labels g).find? id := by
  have ordered := (labelling_labels search g).ordered
  rw [isNode_iff search]
  constructor
  · rintro ⟨c, member, inside⟩
    have large := (describes_of_mem_run member).2.2
    rw [Cluster.size, members_of_mem_run member, Labels.length_carriers ordered] at large
    rw [mem_members_iff member] at inside
    rw [inside]
    exact ⟨⟨c.label, rfl⟩, large⟩
  · rintro ⟨⟨label, carries⟩, large⟩
    rw [carries, ← Labels.length_carriers ordered] at large
    have listed := (Labels.mem_carriers ordered).2 carries
    obtain ⟨position, member⟩ := exists_mem_run rfl (List.ne_nil_of_mem listed) large
    exact ⟨_, member, listed⟩

theorem pairwise_run (search : ClusterSearch) (g : CallGraph) :
    (search.run g).Pairwise fun left right =>
      left.Precedes right ∧ left.label ≠ right.label := by
  have inOrder := ordered_unsorted search g
  have sorted := pairwise_mergeSort_stable Cluster.le_iff inOrder
  have apart : ((search.unsorted g).mergeSort Cluster.le).Pairwise
      fun left right => left.label ≠ right.label := by
    rw [← List.pairwise_map (R := (· ≠ ·))]
    refine ((List.mergeSort_perm _ _).map Cluster.label).nodup_iff.2 ?_
    exact List.pairwise_map.2 (inOrder.imp ne_of_lt)
  have both := sorted.and apart
  rw [← List.zipIdx_map_fst 0 ((search.unsorted g).mergeSort Cluster.le), List.pairwise_map] at both
  rw [run_eq, List.pairwise_map]
  refine both.imp ?_
  rintro ⟨left, _⟩ ⟨right, _⟩ ⟨less | ⟨same, -⟩, different⟩
  · exact ⟨Cluster.place_lt_iff.1 less, different⟩
  · -- Clusters with different labels never share a place.
    exact absurd (congrArg (fun place => (ofLex (ofLex place).2).2) same) different

theorem map_id_run : (search.run g).map Cluster.id = List.range (search.run g).length := by
  have numbers : (search.run g).map Cluster.id
      = ((search.unsorted g).mergeSort Cluster.le).zipIdx.map Prod.snd := by
    rw [run_eq, List.map_map]
    rfl
  rw [numbers, List.zipIdx_map_snd, List.range_eq_range', run_eq, List.length_map,
    List.length_zipIdx]

/-- The clusters of a run are the label groups of at least the least size.  They share no member,
    each is measured by the undirected graph among its members, and they are strictly in order and
    numbered. -/
theorem run_measures_label_groups (search : ClusterSearch) (g : CallGraph) :
    let labels := search.labels g
    let clusters := search.run g
    (∀ c ∈ clusters, search.minSize ≤ c.size ∧ c.Measured g ∧
      ∀ id, id ∈ c.members ↔ labels.find? id = some c.label) ∧
    (∀ id, (∃ c ∈ clusters, id ∈ c.members) ↔ IsNode g id ∧
      search.minSize
        ≤ (Table.keys labels).countP fun other => labels.find? other = labels.find? id) ∧
    clusters.Pairwise (fun left right =>
      left.Precedes right ∧ left.members.Disjoint right.members) ∧
    clusters.map Cluster.id = List.range clusters.length := by
  intro labels clusters
  refine ⟨fun c member => ?_, fun id => exists_mem_members_iff search, ?_, map_id_run⟩
  · exact ⟨(describes_of_mem_run member).2.2, measured_of_mem_run member,
      fun id => mem_members_iff member⟩
  · refine (pairwise_run search g).imp_of_mem ?_
    rintro left right leftMember rightMember ⟨precedes, different⟩
    refine ⟨precedes, fun id inLeft inRight => different ?_⟩
    rw [mem_members_iff leftMember] at inLeft
    rw [mem_members_iff rightMember, inLeft] at inRight
    exact Option.some.inj inRight

end ClusterSearch

end LoadBearing
