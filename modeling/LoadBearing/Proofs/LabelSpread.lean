import Mathlib.Combinatorics.SimpleGraph.Acyclic
import Mathlib.Combinatorics.SimpleGraph.Connectivity.Subgraph
import LoadBearing.Proofs.ClusterMeasure

/-! # How labels spread

A label starts at the routine it names and is only ever taken over from a neighbour.  It never gets
out of the connected component of that routine.  As long as nobody gives it up, those who carry it
are linked through one another, and the routine it names is one of them.

A routine that gives a label up takes nobody along.  Its own label can stay behind with others, and
carriers that it held together can fall apart: both happen with the default settings, and nothing
mends it afterwards.  `GivesUp` names that one event; everything that goes wrong with a cluster is
traced back to it through `midway_holds_or_breaks`.
-/

namespace LoadBearing

open Neighbourhood (Linked IsNode Simple)

namespace Labels

/-! ## The updates of a run -/

variable {near : Neighbourhood} {labels : Table String}

theorem find?_adopt_of_ne {id other : String} (different : other ≠ id) :
    (adopt near labels id).find? other = labels.find? other := by
  rw [adopt_eq]
  cases favourite? (around near labels id) with
  | none => rfl
  | some new => rw [Table.find?_insert, if_neg different]

/-- What holds at the start and is kept by every update holds after all passes. -/
theorem midway_induction {P : Table String → Prop} (first : P (start near)) (limit : Nat)
    (step : ∀ passes < limit, ∀ updates id, (Table.keys near)[updates]? = some id →
      P (midway near passes updates) → P (midway near passes (updates + 1))) :
    P (midway near limit 0) := by
  induction limit with
  | zero => exact first
  | succ limit ih =>
    have beforePass := ih fun passes earlier => step passes (by omega)
    have within : ∀ updates ≤ (Table.keys near).length, P (midway near limit updates) := by
      intro updates
      induction updates with
      | zero => exact fun _ => beforePass
      | succ updates ih =>
        intro bound
        have next := List.getElem?_eq_getElem bound
        exact step limit (by omega) updates _ next (ih (by omega))
    rw [midway_next_pass]
    exact within _ le_rfl

/-- What holds at the start holds after all passes, or some update is the first to break it. -/
theorem midway_holds_or_breaks {P : Table String → Prop} (first : P (start near)) (limit : Nat) :
    P (midway near limit 0) ∨
      ∃ passes < limit, ∃ updates id, (Table.keys near)[updates]? = some id ∧
        P (midway near passes updates) ∧ ¬ P (midway near passes (updates + 1)) := by
  by_contra neither
  rw [not_or] at neither
  refine neither.1 (midway_induction first limit ?_)
  intro passes early updates id next held
  by_contra broken
  exact neither.2 ⟨passes, early, updates, id, next, held, broken⟩

/-- In a run, a routine whose turn it is gives a label up for the favourite label around it. -/
structure GivesUp (near : Neighbourhood) (passes updates : Nat) (id label : String) : Prop where
  turn : (Table.keys near)[updates]? = some id
  carried : (midway near passes updates).find? id = some label
  adopted : ∃ new, new ≠ label ∧ IsFavourite (around near (midway near passes updates) id) new ∧
    midway near passes (updates + 1) = (midway near passes updates).insert id new

theorem keeps_or_givesUp (simple : Simple near) {passes updates : Nat} {id label : String}
    (turn : (Table.keys near)[updates]? = some id)
    (carried : (midway near passes updates).find? id = some label) :
    (midway near passes (updates + 1)).find? id = some label ∨
      GivesUp near passes updates id label := by
  have next := midway_succ turn passes
  rcases (labelling_midway simple passes updates).adopt_cases simple id with
    ⟨-, unchanged⟩ | ⟨new, favourite, changed⟩
  · left
    rw [next, unchanged, carried]
  · by_cases same : new = label
    · left
      rw [next, changed, Table.find?_insert, if_pos rfl, same]
    · exact .inr ⟨turn, carried, new, same, favourite, next.trans changed⟩

/-! ## Components -/

variable {g : CallGraph}

theorem reachable_adopt (labelling : Labelling (Neighbourhood.of g) labels)
    (reaches : ∀ id label, labels.find? id = some label → g.undirected.Reachable id label)
    (turn : String) :
    ∀ id label, (adopt (Neighbourhood.of g) labels turn).find? id = some label →
      g.undirected.Reachable id label := by
  intro id label carries
  rcases labelling.adopt_cases (Neighbourhood.simple_of g) turn with
    ⟨-, unchanged⟩ | ⟨new, favourite, changed⟩
  · rw [unchanged] at carries
    exact reaches id label carries
  · rw [changed, Table.find?_insert] at carries
    split at carries
    next same =>
      -- A neighbour carries the new label already, so it is a step away from where that leads.
      subst same
      cases carries
      obtain ⟨other, neighbour, carried⟩ := List.mem_filterMap.1 favourite.1
      have adjacent : g.undirected.Adj id other := Neighbourhood.mem_around_of.1 neighbour
      exact adjacent.reachable.trans (reaches other _ carried)
    next => exact reaches id label carries

theorem reachable_labels (search : ClusterSearch) {id label : String}
    (carries : (search.labels g).find? id = some label) : g.undirected.Reachable id label := by
  have simple := Neighbourhood.simple_of g
  refine midway_induction (P := fun labels => ∀ id label, labels.find? id = some label →
    g.undirected.Reachable id label) ?_ search.maxPasses ?_ id label carries
  · intro id label found
    obtain ⟨key, -, same⟩ := List.mem_map.1 (Table.mem_of_find? found)
    cases same
    exact .rfl
  · intro passes _ updates turn next reaches
    rw [midway_succ next]
    exact reachable_adopt (labelling_midway simple passes updates) reaches turn

/-- Labels stay in their connected component: every routine is labelled by one that it is connected
    to, so a cluster never takes members from two components. -/
theorem labels_stay_in_component (search : ClusterSearch) (g : CallGraph) :
    (∀ id, IsNode g id → ∃ label, (search.labels g).find? id = some label ∧ IsNode g label ∧
      g.undirected.Reachable id label) ∧
    ∀ c ∈ search.run g, ∀ one ∈ c.members, ∀ other ∈ c.members,
      g.undirected.Reachable one other := by
  constructor
  · intro id node
    obtain ⟨label, carries⟩ := (ClusterSearch.isNode_iff search).1 node
    have labelNode := (ClusterSearch.labelling_labels search g).values carries
    exact ⟨label, carries, Neighbourhood.mem_keys_of.1 labelNode, reachable_labels search carries⟩
  · intro c member one oneMember other otherMember
    rw [ClusterSearch.mem_members_iff member] at oneMember otherMember
    exact (reachable_labels search oneMember).trans (reachable_labels search otherMember).symm

/-! ## Labels that are given up -/

theorem carries_own_or_givesUp (search : ClusterSearch) {id : String} (node : IsNode g id) :
    (search.labels g).find? id = some id ∨
      ∃ passes < search.maxPasses, ∃ updates,
        GivesUp (Neighbourhood.of g) passes updates id id := by
  have simple := Neighbourhood.simple_of g
  rcases midway_holds_or_breaks (P := fun labels => labels.find? id = some id)
      (find?_start simple (Neighbourhood.mem_keys_of.2 node)) search.maxPasses with
    kept | ⟨passes, early, updates, turn, next, carried, lost⟩
  · exact .inl kept
  · -- Only the turn of a routine changes what it carries.
    have own : turn = id := by
      by_contra another
      rw [midway_succ next, find?_adopt_of_ne (Ne.symm another)] at lost
      exact lost carried
    subst own
    exact .inr ⟨passes, early, updates, (keeps_or_givesUp simple next carried).resolve_left lost⟩

theorem preconnected_carriers_start (g : CallGraph) (label : String) :
    (g.among (carriers (start (Neighbourhood.of g)) label)).Preconnected := by
  have own : ∀ id ∈ carriers (start (Neighbourhood.of g)) label, id = label := by
    intro id member
    obtain ⟨entry, kept, rfl⟩ := List.mem_map.1 member
    obtain ⟨stored, same⟩ := List.mem_filter.1 kept
    obtain ⟨key, -, rfl⟩ := List.mem_map.1 stored
    simpa using same
  have alone : {id | id ∈ carriers (start (Neighbourhood.of g)) label}.Subsingleton :=
    fun one oneMember other otherMember => (own one oneMember).trans (own other otherMember).symm
  have := alone.coe_sort
  exact .of_subsingleton

/-- An update keeps the carriers of a label together unless it makes one of them give it up. -/
theorem preconnected_carriers_adopt (labelling : Labelling (Neighbourhood.of g) labels)
    {turn label : String} (node : turn ∈ Table.keys (Neighbourhood.of g))
    (stays : labels.find? turn = some label →
      (adopt (Neighbourhood.of g) labels turn).find? turn = some label)
    (together : (g.among (carriers labels label)).Preconnected) :
    (g.among (carriers (adopt (Neighbourhood.of g) labels turn) label)).Preconnected := by
  have simple := Neighbourhood.simple_of g
  have ordered := (labelling.adopt simple node).ordered
  rcases labelling.adopt_cases simple turn with ⟨-, unchanged⟩ | ⟨new, favourite, changed⟩
  · rw [unchanged]
    exact together
  · rw [changed] at stays ordered ⊢
    rw [Table.find?_insert, if_pos rfl] at stays
    by_cases joins : new = label
    · -- The new carrier has the label from a neighbour, who links it to the others.
      subst joins
      obtain ⟨other, neighbour, carried⟩ := List.mem_filterMap.1 favourite.1
      have adjacent : g.undirected.Adj turn other := Neighbourhood.mem_around_of.1 neighbour
      have grown : {id | id ∈ carriers (labels.insert turn new) new}
          = {id | id ∈ carriers labels new} ∪ {turn} := by
        ext id
        by_cases same : id = turn <;>
          simp [mem_carriers ordered, mem_carriers labelling.ordered, Table.find?_insert, same]
      rw [CallGraph.among, grown]
      exact (SimpleGraph.connected_induce_union together .of_subsingleton
        ((mem_carriers labelling.ordered).2 carried) (Set.mem_singleton turn)
        adjacent.symm).preconnected
    · -- Whoever takes another label did not carry this one.
      have absent : labels.find? turn ≠ some label := fun carried =>
        joins (Option.some.inj (stays carried))
      have same : {id | id ∈ carriers (labels.insert turn new) label}
          = {id | id ∈ carriers labels label} := by
        ext id
        by_cases here : id = turn <;>
          simp [mem_carriers ordered, mem_carriers labelling.ordered, Table.find?_insert, here,
            joins, absent]
      rw [CallGraph.among, same]
      exact together

theorem together_or_cut (search : ClusterSearch) (g : CallGraph) (label : String) :
    (g.among (carriers (search.labels g) label)).Preconnected ∨
      ∃ passes < search.maxPasses, ∃ updates id,
        GivesUp (Neighbourhood.of g) passes updates id label ∧
        (g.among (carriers (midway (Neighbourhood.of g) passes updates) label)).Preconnected ∧
        ¬ (g.among (carriers (midway (Neighbourhood.of g) passes (updates + 1))
            label)).Preconnected := by
  have simple := Neighbourhood.simple_of g
  rcases midway_holds_or_breaks (P := fun labels => (g.among (carriers labels label)).Preconnected)
      (preconnected_carriers_start g label) search.maxPasses with
    together | ⟨passes, early, updates, turn, next, together, apart⟩
  · exact .inl together
  · have gone : GivesUp (Neighbourhood.of g) passes updates turn label := by
      by_contra stays
      refine apart ?_
      have step := midway_succ next passes
      rw [step]
      refine preconnected_carriers_adopt (labelling_midway simple passes updates)
        (List.mem_of_getElem? next) (fun carried => ?_) together
      rw [← step]
      exact (keeps_or_givesUp simple next carried).resolve_right stays
    exact .inr ⟨passes, early, updates, turn, gone, together, apart⟩

end Labels

/-! ## Labels and members -/

namespace ClusterSearch

open Labels (carriers midway GivesUp)

variable {search : ClusterSearch} {g : CallGraph} {c : Cluster}

theorem exists_mem_members (member : c ∈ search.run g) : ∃ id, id ∈ c.members :=
  List.exists_mem_of_ne_nil _ (describes_of_mem_run member).2.1

theorem reachable_label (member : c ∈ search.run g) {id : String} (inside : id ∈ c.members) :
    g.undirected.Reachable id c.label :=
  Labels.reachable_labels search ((mem_members_iff member).1 inside)

theorem isNode_label (member : c ∈ search.run g) : IsNode g c.label := by
  obtain ⟨id, inside⟩ := exists_mem_members member
  have carries := (mem_members_iff member).1 inside
  exact Neighbourhood.mem_keys_of.1 ((labelling_labels search g).values carries)

/-- The label of a cluster names a routine that is connected to the members.  It is a member itself
    unless it ended up with another label, and then it gave its own up in the course of the run.  A
    cluster that fills its connected component has its label among its members. -/
theorem label_is_member_unless_given_up (search : ClusterSearch) (g : CallGraph) :
    ∀ c ∈ search.run g,
      (IsNode g c.label ∧ ∀ id ∈ c.members, g.undirected.Reachable id c.label) ∧
      (c.label ∉ c.members ↔
        ∃ other, other ≠ c.label ∧ (search.labels g).find? c.label = some other) ∧
      (c.label ∉ c.members → ∃ passes < search.maxPasses, ∃ updates,
        GivesUp (Neighbourhood.of g) passes updates c.label c.label) ∧
      ((∃ id ∈ c.members, ∀ other, g.undirected.Reachable id other → other ∈ c.members) →
        c.label ∈ c.members) := by
  intro c member
  have node := isNode_label member
  refine ⟨⟨node, fun id inside => reachable_label member inside⟩, ?_, fun outside => ?_, ?_⟩
  · obtain ⟨other, carries⟩ := (isNode_iff search).1 node
    rw [mem_members_iff member, carries]
    simp
  · rw [mem_members_iff member] at outside
    exact (Labels.carries_own_or_givesUp search node).resolve_left outside
  · rintro ⟨id, inside, whole⟩
    exact whole c.label (reachable_label member inside)

namespace Sample

def graph (names : List String) (calls : List (String × String)) : CallGraph :=
  .ofParts
    (names.map fun name => .ofDefinition ("m.js::" ++ name) "m.js" (.spanning name .function 1 1))
    (calls.map fun (source, target) =>
      .known ("m.js::" ++ source) ("m.js::" ++ target) target none "m.js" 1 false .sameFile)

/-- A helper `d` of two callers: `a` calls `b` besides, and `c` calls `e` and `f`. -/
def sharedHelper : CallGraph := graph ["a", "b", "c", "d", "e", "f"]
  [("a", "b"), ("a", "d"), ("c", "d"), ("c", "e"), ("c", "f")]

theorem labels_sharedHelper : ({} : ClusterSearch).labels sharedHelper
    = [("m.js::a", "m.js::b"), ("m.js::b", "m.js::b"), ("m.js::c", "m.js::d"),
      ("m.js::d", "m.js::b"), ("m.js::e", "m.js::d"), ("m.js::f", "m.js::d")] := by
  decide +kernel

theorem exists_label_outside :
    ∃ c ∈ ({} : ClusterSearch).run sharedHelper, c.label ∉ c.members := by
  have listed : carriers (({} : ClusterSearch).labels sharedHelper) "m.js::d"
      = ["m.js::c", "m.js::e", "m.js::f"] := by
    rw [labels_sharedHelper]
    decide
  obtain ⟨position, member⟩ := exists_mem_run listed (by simp) (by decide)
  refine ⟨_, member, ?_⟩
  show "m.js::d" ∉ ["m.js::c", "m.js::e", "m.js::f"]
  decide

end Sample

/-- The label of the shared helper stays behind when the helper gives it up. -/
theorem label_is_member_unless_given_up_sharedHelper :
    ∃ c ∈ ({} : ClusterSearch).run Sample.sharedHelper, c.label ∉ c.members ∧
      ∃ passes < 15, ∃ updates,
        GivesUp (Neighbourhood.of Sample.sharedHelper) passes updates c.label c.label := by
  obtain ⟨c, member, outside⟩ := Sample.exists_label_outside
  have traced := label_is_member_unless_given_up {} Sample.sharedHelper c member
  exact ⟨c, member, outside, traced.2.2.1 outside⟩

/-- With the default settings, not every label is a member of its cluster. -/
theorem label_names_no_member :
    ¬ ∀ c ∈ ({} : ClusterSearch).run Sample.sharedHelper, c.label ∈ c.members := by
  obtain ⟨c, member, outside⟩ := Sample.exists_label_outside
  exact fun always => outside (always c member)

/-! ## Connected clusters -/

theorem size_le_of_connected (member : c ∈ search.run g)
    (connected : (g.among c.members).Connected) : c.size ≤ c.internalEdges + 1 := by
  have measured := measured_of_mem_run member
  have bound := connected.card_vert_le_card_edgeSet_add_one
  rw [Nat.card_eq_fintype_card, CallGraph.card_among measured.ordered.nodup] at bound
  rw [measured.edges]
  exact bound

/-- The members of a cluster are connected with one another, with at most one member more than there
    are edges, unless a routine that gave the label up cut its carriers apart.  Once the labels have
    settled, every member that is linked to anything is linked to another member. -/
theorem cluster_connected_unless_cut (search : ClusterSearch) (g : CallGraph) :
    ∀ c ∈ search.run g,
      ((g.among c.members).Connected ∧ c.size ≤ c.internalEdges + 1 ∨
        ∃ passes < search.maxPasses, ∃ updates id,
          GivesUp (Neighbourhood.of g) passes updates id c.label ∧
          (g.among (carriers (midway (Neighbourhood.of g) passes updates)
            c.label)).Preconnected ∧
          ¬ (g.among (carriers (midway (Neighbourhood.of g) passes (updates + 1))
            c.label)).Preconnected) ∧
      (Labels.pass (Neighbourhood.of g) (search.labels g) = search.labels g →
        ∀ id ∈ c.members, (∃ other, Linked g id other) →
          ∃ other ∈ c.members, Linked g id other) := by
  intro c member
  refine ⟨?_, fun settled id inside ⟨other, linked⟩ => ?_⟩
  · rcases Labels.together_or_cut search g c.label with together | cut
    · left
      rw [← members_of_mem_run member] at together
      obtain ⟨first, inside⟩ := exists_mem_members member
      have : Nonempty {id | id ∈ c.members} := ⟨first, inside⟩
      have connected : (g.among c.members).Connected := .mk together
      exact ⟨connected, size_le_of_connected member connected⟩
    · exact .inr cut
  · have carries := (mem_members_iff member).1 inside
    have favourite := (labelling_labels search g).favourite_of_pass (Neighbourhood.simple_of g)
      settled carries (List.ne_nil_of_mem (Neighbourhood.mem_around_of.2 linked))
    obtain ⟨next, neighbour, carried⟩ := List.mem_filterMap.1 favourite.1
    exact ⟨next, (mem_members_iff member).2 carried, Neighbourhood.mem_around_of.1 neighbour⟩

namespace Sample

/-- Two callers `b` and `d` with two callees of their own each.  They share only `e`, which is also
    part of the circle of `a`, `c` and `f`. -/
def circleBetween : CallGraph := graph ["a", "b", "c", "d", "e", "f", "g", "h", "i", "j"]
  [("a", "c"), ("a", "e"), ("b", "e"), ("b", "g"), ("b", "i"), ("c", "f"), ("d", "e"), ("d", "h"),
    ("d", "j"), ("e", "f")]

theorem labels_circleBetween : ({} : ClusterSearch).labels circleBetween
    = [("m.js::a", "m.js::c"), ("m.js::b", "m.js::e"), ("m.js::c", "m.js::c"),
      ("m.js::d", "m.js::e"), ("m.js::e", "m.js::c"), ("m.js::f", "m.js::c"),
      ("m.js::g", "m.js::e"), ("m.js::h", "m.js::e"), ("m.js::i", "m.js::e"),
      ("m.js::j", "m.js::e")] := by
  decide +kernel

theorem exists_cluster_short_of_edges :
    ∃ c ∈ ({} : ClusterSearch).run circleBetween, c.internalEdges + 1 < c.size := by
  have listed : carriers (({} : ClusterSearch).labels circleBetween) "m.js::e"
      = ["m.js::b", "m.js::d", "m.js::g", "m.js::h", "m.js::i", "m.js::j"] := by
    rw [labels_circleBetween]
    decide
  obtain ⟨position, member⟩ := exists_mem_run listed (by simp) (by decide)
  refine ⟨_, member, ?_⟩
  show (Cluster.describe circleBetween _ "m.js::e" _).internalEdges + 1 < 6
  decide +kernel

end Sample

/-- The cluster of the two callers fell apart when a routine gave its label up. -/
theorem cluster_connected_unless_cut_circleBetween :
    ∃ c ∈ ({} : ClusterSearch).run Sample.circleBetween, ∃ passes < 15, ∃ updates id,
      GivesUp (Neighbourhood.of Sample.circleBetween) passes updates id c.label ∧
      ¬ (Sample.circleBetween.among
        (carriers (midway (Neighbourhood.of Sample.circleBetween) passes (updates + 1))
          c.label)).Preconnected := by
  obtain ⟨c, member, few⟩ := Sample.exists_cluster_short_of_edges
  have traced := (cluster_connected_unless_cut {} Sample.circleBetween c member).1
  rcases traced with ⟨-, enough⟩ | ⟨passes, early, updates, id, gone, -, apart⟩
  · exact absurd enough (by omega)
  · exact ⟨c, member, passes, early, updates, id, gone, apart⟩

/-- With the default settings, not every cluster is connected. -/
theorem cluster_in_two_parts :
    ∃ c ∈ ({} : ClusterSearch).run Sample.circleBetween,
      ¬ (Sample.circleBetween.among c.members).Connected ∧ c.internalEdges + 1 < c.size := by
  obtain ⟨c, member, few⟩ := Sample.exists_cluster_short_of_edges
  refine ⟨c, member, fun connected => ?_, few⟩
  have enough := size_le_of_connected member connected
  omega

end ClusterSearch

end LoadBearing
