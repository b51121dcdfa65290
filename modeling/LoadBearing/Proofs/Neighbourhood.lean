import Mathlib.Data.List.Perm.Basic
import LoadBearing.Cluster
import LoadBearing.Proofs.Table

/-! # Neighbourhoods as undirected graphs

The neighbourhood of a call graph is a simple undirected graph: being a neighbour is symmetric, no
routine is its own neighbour, and every neighbour has an entry of its own.  `links` lists the edges
of that graph, each once, and `touching_perm` says that the edges at a routine are its neighbours.
-/

namespace LoadBearing.Neighbourhood

/-- A call leads from one of two different routines to the other. -/
def Joins (c : Call) (one other : String) : Prop :=
  one ≠ other ∧ (c.source = one ∧ c.target = some other ∨ c.source = other ∧ c.target = some one)

def Linked (g : CallGraph) (one other : String) : Prop :=
  ∃ c ∈ g.calls, c.resolved = true ∧ Joins c one other

/-- An identity of a routine, or an end of a known call. -/
def IsNode (g : CallGraph) (id : String) : Prop :=
  (∃ r ∈ g.routines, r.id = id) ∨ ∃ other, Linked g id other

def links (near : Neighbourhood) : List (String × String) :=
  (Table.keys near).flatMap fun id =>
    ((near.around id).filter (id < ·)).map fun other => (id, other)

/-- A neighbourhood that is a simple undirected graph. -/
structure Simple (near : Neighbourhood) : Prop where
  ordered : Table.Ordered near
  rosters : ∀ id, Roster.Ordered (near.around id)
  symm : ∀ {one other}, other ∈ near.around one → one ∈ near.around other
  irrefl : ∀ id, id ∉ near.around id

variable {near : Neighbourhood}

theorem mem_keys_of_mem_around {one other : String} (member : other ∈ near.around one) :
    one ∈ Table.keys near := by
  rw [Table.mem_keys_iff]
  rw [around] at member
  cases found : Table.find? near one with
  | none => simp [found] at member
  | some roster => exact ⟨roster, rfl⟩

theorem Simple.closed (simple : Simple near) {one other : String}
    (member : other ∈ near.around one) : other ∈ Table.keys near :=
  mem_keys_of_mem_around (simple.symm member)

/-! ## Building -/

def join (table : Neighbourhood) (one other : String) : Neighbourhood :=
  table.update one fun roster => Roster.insert other (roster.getD [])

theorem link_eq (near : Neighbourhood) (c : Call) :
    link near c = match c.target with
      | none => near
      | some target =>
        if c.source = target then near else join (join near c.source target) target c.source :=
  rfl

theorem around_join (ordered : Table.Ordered near) (one other id : String) :
    (join near one other).around id
      = if id = one then Roster.insert other (near.around one) else near.around id := by
  rw [around, join, Table.find?_update ordered]
  split <;> rfl

theorem mem_around_join (ordered : Table.Ordered near) {one other id name : String} :
    name ∈ (join near one other).around id
      ↔ (id = one ∧ name = other) ∨ name ∈ near.around id := by
  rw [around_join ordered]
  by_cases same : id = one
  · simp [same, Roster.mem_insert]
  · simp [same]

theorem ordered_join (ordered : Table.Ordered near) (one other : String) :
    Table.Ordered (join near one other) :=
  Table.Ordered.update ordered _ _

theorem rosters_join (ordered : Table.Ordered near)
    (rosters : ∀ id, Roster.Ordered (near.around id)) (one other id : String) :
    Roster.Ordered ((join near one other).around id) := by
  rw [around_join ordered]
  split
  · exact (rosters one).insert other
  · exact rosters id

/-- One edge more, in both rosters. -/
theorem Simple.join_join (simple : Simple near) {one other : String} (different : one ≠ other) :
    Simple (join (join near one other) other one) := by
  have ordered := ordered_join simple.ordered one other
  refine ⟨ordered_join ordered other one,
    rosters_join ordered (rosters_join simple.ordered simple.rosters one other) other one, ?_, ?_⟩
  · intro id name
    rw [mem_around_join ordered, mem_around_join simple.ordered, mem_around_join ordered,
      mem_around_join simple.ordered]
    rintro (⟨rfl, rfl⟩ | ⟨rfl, rfl⟩ | member)
    · exact .inr (.inl ⟨rfl, rfl⟩)
    · exact .inl ⟨rfl, rfl⟩
    · exact .inr (.inr (simple.symm member))
  · intro id
    rw [mem_around_join ordered, mem_around_join simple.ordered]
    rintro (⟨rfl, rfl⟩ | ⟨rfl, rfl⟩ | member)
    · exact different rfl
    · exact different rfl
    · exact simple.irrefl id member

theorem Simple.link (simple : Simple near) (c : Call) : Simple (link near c) := by
  rw [link_eq]
  split
  · exact simple
  · split
    · exact simple
    next different => exact simple.join_join different

theorem mem_around_link (simple : Simple near) (c : Call) {one other : String} :
    other ∈ (near.link c).around one ↔ other ∈ near.around one ∨ Joins c one other := by
  rw [link_eq, Joins]
  cases c.target with
  | none => simp
  | some target =>
    by_cases loop : c.source = target
    · -- A routine that calls itself is joined to nothing by the call.
      simp only [loop, if_true, Option.some.injEq]
      constructor
      · exact .inl
      · rintro (member | ⟨different, ⟨rfl, rfl⟩ | ⟨rfl, rfl⟩⟩)
        · exact member
        · exact absurd rfl different
        · exact absurd rfl different
    · simp only [if_neg loop, mem_around_join (ordered_join simple.ordered _ _),
        mem_around_join simple.ordered, Option.some.injEq]
      constructor
      · rintro (⟨rfl, rfl⟩ | ⟨rfl, rfl⟩ | member)
        · exact .inr ⟨Ne.symm loop, .inr ⟨rfl, rfl⟩⟩
        · exact .inr ⟨loop, .inl ⟨rfl, rfl⟩⟩
        · exact .inl member
      · rintro (member | ⟨-, ⟨rfl, rfl⟩ | ⟨rfl, rfl⟩⟩)
        · exact .inr (.inr member)
        · exact .inr (.inl ⟨rfl, rfl⟩)
        · exact .inl ⟨rfl, rfl⟩

theorem mem_keys_link (c : Call) {id : String} :
    id ∈ Table.keys (near.link c) ↔ id ∈ Table.keys near ∨ ∃ other, Joins c id other := by
  rw [link_eq]
  simp only [Joins]
  cases c.target with
  | none => simp
  | some target =>
    by_cases loop : c.source = target
    · simp only [loop, if_true, Option.some.injEq]
      constructor
      · exact .inl
      · rintro (member | ⟨_, different, ⟨rfl, rfl⟩ | ⟨rfl, rfl⟩⟩)
        · exact member
        · exact absurd rfl different
        · exact absurd rfl different
    · simp only [if_neg loop, join, Table.mem_keys_update, Option.some.injEq]
      constructor
      · rintro (rfl | rfl | member)
        · exact .inr ⟨c.source, Ne.symm loop, .inr ⟨rfl, rfl⟩⟩
        · exact .inr ⟨target, loop, .inl ⟨rfl, rfl⟩⟩
        · exact .inl member
      · rintro (member | ⟨_, -, ⟨rfl, rfl⟩ | ⟨rfl, rfl⟩⟩)
        · exact .inr (.inr member)
        · exact .inr (.inl rfl)
        · exact .inl rfl

def bare (g : CallGraph) : Neighbourhood :=
  g.routines.foldl (fun near r => Table.insertNew near r.id []) []

theorem bare_spec (g : CallGraph) :
    Table.Ordered (bare g) ∧ (∀ id, (bare g).around id = []) ∧
      ∀ id, id ∈ Table.keys (bare g) ↔ ∃ r ∈ g.routines, r.id = id := by
  rw [bare]
  -- The loop is generalised to start from any table of empty rosters.
  suffices general : ∀ (routines : List Routine) (near : Neighbourhood), Table.Ordered near →
      (∀ id, near.around id = []) →
      Table.Ordered (routines.foldl (fun near r => Table.insertNew near r.id []) near) ∧
        (∀ id, around (routines.foldl (fun near r => Table.insertNew near r.id []) near) id = []) ∧
        ∀ id, id ∈ Table.keys (routines.foldl (fun near r => Table.insertNew near r.id []) near)
          ↔ (∃ r ∈ routines, r.id = id) ∨ id ∈ Table.keys near by
    simpa using general g.routines [] Table.ordered_nil (fun _ => rfl)
  intro routines
  induction routines with
  | nil => intro near ordered empty; exact ⟨ordered, empty, by simp⟩
  | cons r rest ih =>
    intro near ordered empty
    have emptyAfter : ∀ id, around (Table.insertNew near r.id []) id = [] := by
      intro id
      rw [around, Table.find?_insertNew ordered]
      split
      · exact empty r.id
      · exact empty id
    obtain ⟨orderedAll, emptyAll, keysAll⟩ := ih _ (ordered.insertNew r.id []) emptyAfter
    refine ⟨orderedAll, emptyAll, fun id => ?_⟩
    rw [List.foldl_cons, keysAll, Table.insertNew, Table.mem_keys_update]
    simp only [List.exists_mem_cons_iff]
    rw [eq_comm (a := id), or_left_comm, or_assoc]

theorem simple_bare (g : CallGraph) : Simple (bare g) := by
  obtain ⟨ordered, empty, -⟩ := bare_spec g
  refine ⟨ordered, fun id => ?_, fun {one other} member => ?_, fun id => ?_⟩
  · rw [empty]; exact List.Pairwise.nil
  · rw [empty] at member; cases member
  · rw [empty]; exact List.not_mem_nil

theorem of_eq (g : CallGraph) : of g = g.resolvedCalls.foldl link (bare g) := rfl

private theorem foldl_link (calls : List Call) (simple : Simple near) :
    Simple (calls.foldl link near) ∧
      (∀ one other, other ∈ (calls.foldl link near).around one
        ↔ other ∈ near.around one ∨ ∃ c ∈ calls, Joins c one other) ∧
      ∀ id, id ∈ Table.keys (calls.foldl link near)
        ↔ id ∈ Table.keys near ∨ ∃ c ∈ calls, ∃ other, Joins c id other := by
  induction calls generalizing near with
  | nil => exact ⟨simple, by simp⟩
  | cons c rest ih =>
    obtain ⟨simpleAll, members, nodes⟩ := ih (simple.link c)
    refine ⟨simpleAll, fun one other => ?_, fun id => ?_⟩
    · rw [List.foldl_cons, members, mem_around_link simple, List.exists_mem_cons_iff, or_assoc]
    · rw [List.foldl_cons, nodes, mem_keys_link, List.exists_mem_cons_iff, or_assoc]

theorem simple_of (g : CallGraph) : Simple (of g) :=
  (foldl_link g.resolvedCalls (simple_bare g)).1

theorem mem_resolvedCalls {g : CallGraph} {c : Call} :
    c ∈ g.resolvedCalls ↔ c ∈ g.calls ∧ c.resolved = true :=
  List.mem_filter

theorem mem_around_of {g : CallGraph} {one other : String} :
    other ∈ (of g).around one ↔ Linked g one other := by
  rw [of_eq, (foldl_link g.resolvedCalls (simple_bare g)).2.1, (bare_spec g).2.1, Linked]
  simp only [List.not_mem_nil, false_or, mem_resolvedCalls, and_assoc]

theorem mem_keys_of {g : CallGraph} {id : String} : id ∈ Table.keys (of g) ↔ IsNode g id := by
  rw [of_eq, (foldl_link g.resolvedCalls (simple_bare g)).2.2, (bare_spec g).2.2, IsNode]
  simp only [mem_resolvedCalls, Linked]
  grind

/-! ## Edges -/

theorem mem_links {one other : String} :
    (one, other) ∈ near.links ↔ one < other ∧ other ∈ near.around one := by
  simp only [links, List.mem_flatMap, List.mem_map, List.mem_filter, decide_eq_true_eq,
    Prod.mk.injEq]
  constructor
  · rintro ⟨id, -, name, ⟨member, smaller⟩, rfl, rfl⟩
    exact ⟨smaller, member⟩
  · rintro ⟨smaller, member⟩
    exact ⟨one, mem_keys_of_mem_around member, other, ⟨member, smaller⟩, rfl, rfl⟩

theorem Simple.nodup_links (simple : Simple near) : near.links.Nodup := by
  rw [links, List.nodup_flatMap]
  constructor
  · intro id _
    exact ((simple.rosters id).nodup.filter _).map fun left right same => (Prod.mk.inj same).2
  · refine List.Pairwise.imp ?_ (Roster.Ordered.nodup simple.ordered)
    intro one other different link memberOne memberOther
    obtain ⟨_, _, rfl⟩ := List.mem_map.1 memberOne
    obtain ⟨_, _, same⟩ := List.mem_map.1 memberOther
    exact different (Prod.mk.inj same).1.symm

def touches (id : String) (link : String × String) : Bool :=
  link.1 = id || link.2 = id

def far (id : String) (link : String × String) : String :=
  if link.1 = id then link.2 else link.1

theorem far_injOn {id : String} {left right : String × String}
    (leftLess : left.1 < left.2) (rightLess : right.1 < right.2)
    (leftTouches : touches id left = true) (rightTouches : touches id right = true)
    (same : far id left = far id right) : left = right := by
  obtain ⟨leftOne, leftOther⟩ := left
  obtain ⟨rightOne, rightOther⟩ := right
  simp only [touches, Bool.or_eq_true, decide_eq_true_eq, far] at *
  grind

/-- The edges at a routine lead to its neighbours, one to each. -/
theorem Simple.touching_perm (simple : Simple near) (id : String) :
    ((near.links.filter (touches id)).map (far id)).Perm (near.around id) := by
  have less : ∀ link ∈ near.links.filter (touches id),
      link.1 < link.2 ∧ touches id link = true := by
    intro link member
    obtain ⟨inLinks, touching⟩ := List.mem_filter.1 member
    exact ⟨(mem_links.1 inLinks).1, touching⟩
  have nodup : ((near.links.filter (touches id)).map (far id)).Nodup := by
    refine List.Nodup.map_on ?_ (simple.nodup_links.filter _)
    intro left leftMember right rightMember same
    exact far_injOn (less left leftMember).1 (less right rightMember).1
      (less left leftMember).2 (less right rightMember).2 same
  rw [List.perm_ext_iff_of_nodup nodup (simple.rosters id).nodup]
  intro other
  rw [List.mem_map]
  constructor
  · rintro ⟨⟨one, two⟩, member, rfl⟩
    obtain ⟨inLinks, touching⟩ := List.mem_filter.1 member
    have adjacent := (mem_links.1 inLinks).2
    simp only [touches, Bool.or_eq_true, decide_eq_true_eq] at touching
    by_cases first : one = id
    · subst first
      simpa [far] using adjacent
    · have second : two = id := touching.resolve_left first
      subst second
      simpa [far, first] using simple.symm adjacent
  · intro member
    rcases lt_trichotomy id other with less | rfl | greater
    · refine ⟨(id, other), List.mem_filter.2 ⟨mem_links.2 ⟨less, member⟩, ?_⟩, ?_⟩
      · simp [touches]
      · simp [far]
    · exact absurd member (simple.irrefl id)
    · refine ⟨(other, id), List.mem_filter.2 ⟨mem_links.2 ⟨greater, simple.symm member⟩, ?_⟩, ?_⟩
      · simp [touches]
      · simp [far, greater.ne]

end LoadBearing.Neighbourhood
