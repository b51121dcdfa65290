import LoadBearing.Proofs.Reciprocal
import LoadBearing.Proofs.Sorting

/-! # Bridges share what they connect

Bridges are found by turning a table of routines with the modules around them into pairs of modules
with the routines between them, and back.  `Arrives` and `Departs` say for a single call what it adds
to the table; everything else is about lists of pairs.

The passages listed for a pair of modules are those of all routines that connect it, or none at all,
and each counts for its share.  Whatever the graph, they add up to nothing or to one.
-/

namespace LoadBearing.Bridge

/-! ## Specification -/

/-- A call leads from a module to a routine of another module. -/
def Arrives (g : CallGraph) (origin id : String) (c : Call) : Prop :=
  c.target = some id ∧ g.home? c.source = some origin ∧ ∃ home ∈ g.home? id, origin ≠ home

/-- A call leads from a routine to a module other than its own. -/
def Departs (g : CallGraph) (id destination : String) (c : Call) : Prop :=
  c.source = id ∧ c.target.bind g.home? = some destination ∧ ∃ home ∈ g.home? id, destination ≠ home

/-- A routine connects two different modules: known calls lead to it from the one, and from it to
    the other, and it belongs to neither. -/
def Connects (g : CallGraph) (origin destination id : String) : Prop :=
  origin ≠ destination ∧ (∃ c ∈ g.resolvedCalls, Arrives g origin id c) ∧
    ∃ c ∈ g.resolvedCalls, Departs g id destination c

instance (g : CallGraph) (origin id : String) : DecidablePred (Arrives g origin id) :=
  fun _ => inferInstanceAs (Decidable (_ ∧ _ ∧ _))

instance (g : CallGraph) (id destination : String) : DecidablePred (Departs g id destination) :=
  fun _ => inferInstanceAs (Decidable (_ ∧ _ ∧ _))

instance (g : CallGraph) (origin destination : String) :
    DecidablePred (Connects g origin destination) :=
  fun _ => inferInstanceAs (Decidable (_ ∧ _ ∧ _))

def bridgers (g : CallGraph) (origin destination : String) : Finset String :=
  (g.calls.map Call.source).toFinset.filter (Connects g origin destination)

theorem mem_bridgers {g : CallGraph} {origin destination id : String} :
    id ∈ bridgers g origin destination ↔ Connects g origin destination id := by
  rw [bridgers, Finset.mem_filter, and_iff_right_iff_imp]
  rintro ⟨-, -, c, known, rfl, -⟩
  exact List.mem_toFinset.2 (List.mem_map_of_mem (List.mem_of_mem_filter known))

/-! ## Contacts -/

def around (known : Table Contacts) (id : String) : Contacts :=
  (known.find? id).getD {}

def addCallee (known : Table Contacts) (id destination : String) : Table Contacts :=
  known.update id fun old =>
    { old.getD {} with callees := Roster.insert destination (old.getD {}).callees }

def addCaller (known : Table Contacts) (id origin : String) : Table Contacts :=
  known.update id fun old =>
    { old.getD {} with callers := Roster.insert origin (old.getD {}).callers }

section Contacts

variable {g : CallGraph} {known : Table Contacts}

theorem callers_addCallee (ordered : known.Ordered) (id destination other : String) :
    (around (addCallee known id destination) other).callers = (around known other).callers := by
  rw [around, addCallee, Table.find?_update ordered]
  split
  next same => rw [same]; rfl
  next => rfl

theorem callees_addCallee (ordered : known.Ordered) (id destination other : String) :
    (around (addCallee known id destination) other).callees
      = if other = id then Roster.insert destination (around known id).callees
        else (around known other).callees := by
  rw [around, addCallee, Table.find?_update ordered]
  split <;> rfl

theorem callers_addCaller (ordered : known.Ordered) (id origin other : String) :
    (around (addCaller known id origin) other).callers
      = if other = id then Roster.insert origin (around known id).callers
        else (around known other).callers := by
  rw [around, addCaller, Table.find?_update ordered]
  split <;> rfl

theorem callees_addCaller (ordered : known.Ordered) (id origin other : String) :
    (around (addCaller known id origin) other).callees = (around known other).callees := by
  rw [around, addCaller, Table.find?_update ordered]
  split
  next same => rw [same]; rfl
  next => rfl

theorem mem_ite_insert (roster : String → List String) {name new id other : String} :
    name ∈ (if other = id then Roster.insert new (roster id) else roster other)
      ↔ name ∈ roster other ∨ other = id ∧ name = new := by
  by_cases same : other = id
  · simp [same, Roster.mem_insert, or_comm]
  · simp [same]

theorem ordered_ite_insert {new id other : String} {roster : String → List String}
    (ordered : ∀ id, Roster.Ordered (roster id)) :
    Roster.Ordered (if other = id then Roster.insert new (roster id) else roster other) := by
  split
  · exact (ordered id).insert new
  · exact ordered other

/-- A call enters its modules at both its ends, unless an end is unknown or it stays in its module. -/
theorem meet_cases (g : CallGraph) (known : Table Contacts) (c : Call) :
    (∃ target here there, meet g known c = addCaller (addCallee known c.source there) target here ∧
      (∀ origin id, Arrives g origin id c ↔ id = target ∧ origin = here) ∧
      ∀ id destination, Departs g id destination c ↔ id = c.source ∧ destination = there) ∨
    (meet g known c = known ∧ (∀ origin id, ¬ Arrives g origin id c) ∧
      ∀ id destination, ¬ Departs g id destination c) := by
  cases target : c.target with
  | none => exact .inr ⟨by simp [meet, target], by simp [Arrives, target], by simp [Departs, target]⟩
  | some target' =>
    cases here : g.home? c.source with
    | none => exact .inr ⟨by simp [meet, target, here], by simp [Arrives, here], by grind [Departs]⟩
    | some here' =>
      cases there : g.home? target' with
      | none =>
        exact .inr ⟨by simp [meet, target, here, there], by grind [Arrives], by grind [Departs]⟩
      | some there' =>
        by_cases same : here' = there'
        · exact .inr ⟨by simp [meet, target, here, there, same], by grind [Arrives],
            by grind [Departs]⟩
        · refine .inl ⟨target', here', there', ?_, fun origin id => ?_, fun id destination => ?_⟩
          · simp [meet, target, here, there, same, addCaller, addCallee]
          · simp only [Arrives, target, here, Option.some.injEq]
            constructor
            · rintro ⟨rfl, rfl, -⟩; exact ⟨rfl, rfl⟩
            · rintro ⟨rfl, rfl⟩; exact ⟨rfl, rfl, there', there, same⟩
          · simp only [Departs, target, Option.bind_some, there, Option.some.injEq]
            constructor
            · rintro ⟨rfl, rfl, -⟩; exact ⟨rfl, rfl⟩
            · rintro ⟨rfl, rfl⟩; exact ⟨rfl, rfl, here', here, Ne.symm same⟩

/-- What a table of contacts has to say about a list of calls. -/
structure Knows (g : CallGraph) (calls : List Call) (known : Table Contacts) : Prop where
  ordered : known.Ordered
  orderedCallers : ∀ id, Roster.Ordered (around known id).callers
  orderedCallees : ∀ id, Roster.Ordered (around known id).callees
  callers : ∀ id origin, origin ∈ (around known id).callers ↔ ∃ c ∈ calls, Arrives g origin id c
  callees : ∀ id destination,
    destination ∈ (around known id).callees ↔ ∃ c ∈ calls, Departs g id destination c

theorem knows_nil (g : CallGraph) : Knows g [] [] := by
  refine ⟨Table.ordered_nil, fun _ => List.Pairwise.nil, fun _ => List.Pairwise.nil, ?_, ?_⟩
  · simp [around]
  · simp [around]

theorem Knows.meet {calls : List Call} (knows : Knows g calls known) (c : Call) :
    Knows g (calls ++ [c]) (meet g known c) := by
  have split : ∀ {p : Call → Prop}, (∃ d ∈ calls ++ [c], p d) ↔ (∃ d ∈ calls, p d) ∨ p c := by
    simp [or_and_right, exists_or]
  rcases meet_cases g known c with ⟨target, here, there, entered, arrives, departs⟩ |
    ⟨kept, noArrival, noDeparture⟩
  · have first : (addCallee known c.source there).Ordered := knows.ordered.update _ _
    rw [entered]
    refine ⟨first.update _ _, fun id => ?_, fun id => ?_, fun id origin => ?_,
      fun id destination => ?_⟩
    · simp only [callers_addCaller first, callers_addCallee knows.ordered]
      exact ordered_ite_insert knows.orderedCallers
    · simp only [callees_addCaller first, callees_addCallee knows.ordered]
      exact ordered_ite_insert knows.orderedCallees
    · simp only [callers_addCaller first, callers_addCallee knows.ordered]
      rw [mem_ite_insert fun id => (around known id).callers, split, knows.callers, arrives]
    · simp only [callees_addCaller first, callees_addCallee knows.ordered]
      rw [mem_ite_insert fun id => (around known id).callees, split, knows.callees, departs]
  · rw [kept]
    refine ⟨knows.ordered, knows.orderedCallers, knows.orderedCallees, fun id origin => ?_,
      fun id destination => ?_⟩
    · simp [knows.callers, noArrival]
    · simp [knows.callees, noDeparture]

theorem knows_contacts (g : CallGraph) : Knows g g.resolvedCalls (contacts g) := by
  rw [contacts]
  induction g.resolvedCalls using List.reverseRecOn with
  | nil => exact knows_nil g
  | append_singleton calls c ih =>
    rw [List.foldl_append]
    exact ih.meet c

end Contacts

/-! ## Pairs of modules -/

/-- The order of pairs by the first and then by the second name. -/
def Precedes (left right : String × String) : Prop :=
  left.1 < right.1 ∨ left.1 = right.1 ∧ left.2 < right.2

theorem mem_pairs {own : Contacts} {origin destination : String} :
    (origin, destination) ∈ own.pairs ↔
      origin ∈ own.callers ∧ destination ∈ own.callees ∧ destination ≠ origin := by
  simp only [Contacts.pairs, List.mem_flatMap, List.mem_map, List.mem_filter, decide_eq_true_eq,
    Prod.mk.injEq]
  constructor
  · rintro ⟨_, caller, _, ⟨callee, different⟩, rfl, rfl⟩
    exact ⟨caller, callee, different⟩
  · rintro ⟨caller, callee, different⟩
    exact ⟨origin, caller, destination, ⟨callee, different⟩, rfl, rfl⟩

theorem pairwise_pairs {own : Contacts} (callers : Roster.Ordered own.callers)
    (callees : Roster.Ordered own.callees) : own.pairs.Pairwise Precedes := by
  rw [Contacts.pairs, List.pairwise_flatMap]
  constructor
  · intro origin _
    rw [List.pairwise_map]
    exact (callees.filter _).imp fun less => .inr ⟨rfl, less⟩
  · refine callers.imp fun less left leftMember right rightMember => ?_
    obtain ⟨_, -, rfl⟩ := List.mem_map.1 leftMember
    obtain ⟨_, -, rfl⟩ := List.mem_map.1 rightMember
    exact .inl less

section Pairs

variable {g : CallGraph} {origin destination id : String}

theorem mem_pairs_around :
    (origin, destination) ∈ (around (contacts g) id).pairs ↔ id ∈ bridgers g origin destination := by
  rw [mem_pairs, mem_bridgers, Connects, (knows_contacts g).callers, (knows_contacts g).callees]
  tauto

theorem pairwise_pairs_around (g : CallGraph) (id : String) :
    (around (contacts g) id).pairs.Pairwise Precedes :=
  pairwise_pairs ((knows_contacts g).orderedCallers id) ((knows_contacts g).orderedCallees id)

theorem around_of_mem {entry : String × Contacts} (member : entry ∈ contacts g) :
    around (contacts g) entry.1 = entry.2 := by
  rw [around, (knows_contacts g).ordered.find?_of_mem member]
  rfl

theorem mem_of_mem_pairs {pair : String × String} (member : pair ∈ (around (contacts g) id).pairs) :
    (id, around (contacts g) id) ∈ contacts g := by
  cases found : (contacts g).find? id with
  | none => simp [around, found, Contacts.pairs] at member
  | some own =>
    rw [around, found]
    exact Table.mem_of_find? found

theorem length_carriers (g : CallGraph) (origin destination : String) :
    (carriers (contacts g) (origin, destination)).length = (bridgers g origin destination).card := by
  have nodup : (carriers (contacts g) (origin, destination)).Nodup := by
    have keys : (Table.keys (contacts g)).Nodup :=
      Roster.Ordered.nodup (knows_contacts g).ordered
    exact keys.sublist (List.filter_sublist.map Prod.fst)
  rw [← List.toFinset_card_of_nodup nodup]
  congr 1
  ext id
  rw [← mem_pairs_around, List.mem_toFinset, carriers, List.mem_map]
  constructor
  · rintro ⟨entry, member, rfl⟩
    obtain ⟨stored, carries⟩ := List.mem_filter.1 member
    rw [around_of_mem stored]
    exact List.contains_iff_mem.1 carries
  · intro carries
    refine ⟨_, List.mem_filter.2 ⟨mem_of_mem_pairs carries, ?_⟩, rfl⟩
    exact List.contains_iff_mem.2 carries

end Pairs

/-! ## Passages -/

def share (g : CallGraph) (origin destination : String) : Float :=
  1.0 / Float.ofNat (bridgers g origin destination).card

/-- A passage that few routines share with a routine. -/
def Scarce (g : CallGraph) (id : String) (p : Passage) : Prop :=
  id ∈ bridgers g p.origin p.destination ∧ (bridgers g p.origin p.destination).card ≤ 2 ∧
    p.exclusivity = share g p.origin p.destination

section Passages

variable {g : CallGraph} {id : String} {p q : Passage}

theorem mem_passagesOf :
    p ∈ passagesOf (contacts g) (around (contacts g) id) ↔ Scarce g id p := by
  simp only [passagesOf, List.mem_mergeSort, List.mem_filter, List.mem_map, decide_eq_true_eq,
    length_carriers, Prod.exists]
  constructor
  · rintro ⟨⟨origin, destination, carried, rfl⟩, enough⟩
    have member := mem_pairs_around.1 carried
    exact ⟨member, (Double.threshold_le_one_div_iff (Finset.card_pos.2 ⟨id, member⟩)).1 enough, rfl⟩
  · rintro ⟨member, few, exclusivity⟩
    refine ⟨⟨p.origin, p.destination, mem_pairs_around.2 member, ?_⟩, ?_⟩
    · rw [← share, ← exclusivity]
    · rw [exclusivity]
      exact (Double.threshold_le_one_div_iff (Finset.card_pos.2 ⟨id, member⟩)).2 few

theorem Scarce.isShare (scarce : Scarce g id p) : Double.IsShare p.exclusivity :=
  ⟨_, Finset.card_pos.2 ⟨id, scarce.1⟩, scarce.2.1, scarce.2.2⟩

theorem Scarce.value_eq (scarce : Scarce g id p) :
    Double.value p.exclusivity = 1 / (bridgers g p.origin p.destination).card := by
  rw [scarce.2.2, share]
  exact (Double.reads_one_div (Finset.card_pos.2 ⟨id, scarce.1⟩) scarce.2.1).value_eq

def Above (p q : Passage) : Prop :=
  q.exclusivity < p.exclusivity ∨
    p.exclusivity = q.exclusivity ∧ Precedes (p.origin, p.destination) (q.origin, q.destination)

theorem pairwise_passagesOf (g : CallGraph) (id : String) :
    (passagesOf (contacts g) (around (contacts g) id)).Pairwise Above := by
  have decides : ∀ left right : Passage,
      Decimal.le right.exclusivity left.exclusivity = true ↔
        OrderDual.toDual (Decimal.orderKey left.exclusivity)
          ≤ OrderDual.toDual (Decimal.orderKey right.exclusivity) := by
    simp [Decimal.le]
  have before : ((((around (contacts g) id).pairs.map fun pair =>
      { origin := pair.1
        destination := pair.2
        exclusivity := 1.0 / Float.ofNat (carriers (contacts g) pair).length : Passage }).filter
      fun passage => threshold ≤ passage.exclusivity)).Pairwise fun p q =>
        Precedes (p.origin, p.destination) (q.origin, q.destination) := by
    refine List.Pairwise.filter _ ?_
    rw [List.pairwise_map]
    exact pairwise_pairs_around g id
  have sorted := pairwise_mergeSort_stable decides before
  refine List.Pairwise.imp_of_mem ?_ sorted
  intro p q pMember qMember above
  obtain ⟨less, -, equal⟩ :=
    (mem_passagesOf.1 qMember).isShare.faithful (mem_passagesOf.1 pMember).isShare
  rcases above with higher | ⟨tie, precedes⟩
  · exact .inl (less.2 (OrderDual.toDual_lt_toDual.1 higher))
  · exact .inr ⟨(equal.2 (OrderDual.toDual_inj.1 tie).symm).symm, precedes⟩

end Passages

/-! ## Bridges -/

def ofEntry (g : CallGraph) (entry : String × Contacts) : Option Bridge :=
  match passagesOf (contacts g) entry.2 with
  | [] => none
  | best :: rest =>
    some
      { id := entry.1
        home := (g.home? entry.1).getD ""
        score := best.exclusivity
        passages := best :: rest }

theorem all_eq (g : CallGraph) : all g = ((contacts g).filterMap (ofEntry g)).mergeSort le := rfl

section Bridges

variable {g : CallGraph} {b : Bridge}

theorem ofEntry_eq_some_iff {entry : String × Contacts} :
    ofEntry g entry = some b ↔ b.id = entry.1 ∧ b.home = (g.home? entry.1).getD "" ∧
      b.passages = passagesOf (contacts g) entry.2 ∧
      ∃ best ∈ b.passages.head?, b.score = best.exclusivity := by
  obtain ⟨id, home, score, passages⟩ := b
  rw [ofEntry]
  cases passagesOf (contacts g) entry.2 with
  | nil => grind
  | cons best rest => grind

theorem mem_all :
    b ∈ all g ↔ b.home = (g.home? b.id).getD "" ∧
      b.passages = passagesOf (contacts g) (around (contacts g) b.id) ∧
      ∃ best ∈ b.passages.head?, b.score = best.exclusivity := by
  simp only [all_eq, List.mem_mergeSort, List.mem_filterMap, ofEntry_eq_some_iff]
  constructor
  · rintro ⟨entry, member, same, home, passages, score⟩
    rw [same, around_of_mem member]
    exact ⟨home, passages, score⟩
  · rintro ⟨home, passages, best, first, score⟩
    have listed : best ∈ passagesOf (contacts g) (around (contacts g) b.id) :=
      passages ▸ List.mem_of_mem_head? first
    have carried := mem_pairs_around.2 (mem_passagesOf.1 listed).1
    exact ⟨(b.id, _), mem_of_mem_pairs carried, rfl, home, passages, best, first, score⟩

theorem mem_passages (member : b ∈ all g) {p : Passage} : p ∈ b.passages ↔ Scarce g b.id p := by
  rw [(mem_all.1 member).2.1, mem_passagesOf]

theorem pairwise_passages (member : b ∈ all g) : b.passages.Pairwise Above := by
  rw [(mem_all.1 member).2.1]
  exact pairwise_passagesOf g b.id

theorem exists_score (member : b ∈ all g) :
    ∃ best ∈ b.passages, b.score = best.exclusivity ∧
      ∀ p ∈ b.passages, p.exclusivity ≤ best.exclusivity := by
  obtain ⟨-, -, best, first, score⟩ := mem_all.1 member
  have listed := List.mem_of_mem_head? first
  have share := ((mem_passages member).1 listed).isShare
  refine ⟨best, listed, score, fun p other => ?_⟩
  obtain ⟨less, least, equal⟩ := ((mem_passages member).1 other).isShare.faithful share
  have sorted := pairwise_passages member
  cases passages : b.passages with
  | nil => simp [passages] at listed
  | cons head rest =>
    rw [passages] at first sorted other
    cases first
    rcases List.mem_cons.1 other with rfl | later
    · exact least.2 le_rfl
    · rcases List.rel_of_pairwise_cons sorted later with higher | ⟨tie, -⟩
      · exact least.2 (less.1 higher).le
      · exact least.2 (equal.1 tie.symm).le

theorem isShare_score (member : b ∈ all g) : Double.IsShare b.score := by
  obtain ⟨best, listed, score, -⟩ := exists_score member
  rw [score]
  exact ((mem_passages member).1 listed).isShare

theorem home?_of_mem_all (member : b ∈ all g) : g.home? b.id = some b.home := by
  obtain ⟨best, listed, -⟩ := exists_score member
  obtain ⟨connects, -⟩ := (mem_passages member).1 listed
  obtain ⟨-, ⟨c, -, -, -, home, found, -⟩, -⟩ := mem_bridgers.1 connects
  rw [(mem_all.1 member).1, Option.mem_def.1 found]
  rfl

/-- The bridges are the routines with a share of one half or more in connecting two modules. -/
theorem exists_mem_all_iff {id : String} :
    (∃ b ∈ all g, b.id = id) ↔ ∃ origin destination,
      id ∈ bridgers g origin destination ∧ (bridgers g origin destination).card ≤ 2 := by
  constructor
  · rintro ⟨b, member, rfl⟩
    obtain ⟨best, listed, -⟩ := exists_score member
    obtain ⟨connects, few, -⟩ := (mem_passages member).1 listed
    exact ⟨_, _, connects, few⟩
  · rintro ⟨origin, destination, connects, few⟩
    have listed : ⟨origin, destination, share g origin destination⟩
        ∈ passagesOf (contacts g) (around (contacts g) id) :=
      mem_passagesOf.2 ⟨connects, few, rfl⟩
    cases passages : passagesOf (contacts g) (around (contacts g) id) with
    | nil => simp [passages] at listed
    | cons best rest =>
      exact ⟨⟨id, (g.home? id).getD "", best.exclusivity, best :: rest⟩,
        mem_all.2 ⟨rfl, passages.symm, best, rfl, rfl⟩, rfl⟩

theorem pairwise_id_unsorted (g : CallGraph) :
    ((contacts g).filterMap (ofEntry g)).Pairwise fun left right => left.id < right.id := by
  rw [List.pairwise_filterMap]
  refine (List.pairwise_map.1 (knows_contacts g).ordered).imp ?_
  intro entry other less left leftMade right rightMade
  rw [(ofEntry_eq_some_iff.1 leftMade).1, (ofEntry_eq_some_iff.1 rightMade).1]
  exact less

theorem nodup_ids (g : CallGraph) : ((all g).map Bridge.id).Nodup := by
  have unsorted : (((contacts g).filterMap (ofEntry g)).map Bridge.id).Nodup :=
    List.pairwise_map.2 ((pairwise_id_unsorted g).imp ne_of_lt)
  exact ((List.mergeSort_perm _ _).map Bridge.id).nodup_iff.2 unsorted

theorem pairwise_all (g : CallGraph) :
    (all g).Pairwise fun left right =>
      right.score < left.score ∨ left.score = right.score ∧ left.id < right.id := by
  have decides : ∀ left right : Bridge, le left right = true ↔
      standing left.score left.id ≤ standing right.score right.id := fun _ _ => standing_le_iff
  refine List.Pairwise.imp_of_mem ?_ (pairwise_mergeSort_stable decides (pairwise_id_unsorted g))
  intro left right leftMember rightMember above
  obtain ⟨less, -, equal⟩ := (isShare_score rightMember).faithful (isShare_score leftMember)
  rcases above with higher | ⟨tie, precedes⟩
  · rw [standing, standing, Prod.Lex.toLex_lt_toLex] at higher
    rcases higher with higher | ⟨tie, precedes⟩
    · exact .inl (less.2 higher)
    · exact .inr ⟨(equal.2 tie.symm).symm, precedes⟩
  · -- Equal standings would include equal names.
    have sameId : left.id = right.id := congrArg (fun place => (ofLex place).2) tie
    exact absurd sameId precedes.ne

end Bridges

/-! ## Conservation -/

def listedFor (bridges : List Bridge) (origin destination : String) : List Float :=
  bridges.flatMap fun b =>
    (b.passages.filter fun p => p.origin = origin ∧ p.destination = destination).map
      Passage.exclusivity

section Conservation

variable {g : CallGraph} {b : Bridge}

theorem listedFor_singleton (member : b ∈ all g) (origin destination : String) :
    (b.passages.filter fun p => p.origin = origin ∧ p.destination = destination).map
        Passage.exclusivity
      = if b.id ∈ bridgers g origin destination ∧ (bridgers g origin destination).card ≤ 2
        then [share g origin destination] else [] := by
  have sorted := (pairwise_passages member).filter fun p =>
    p.origin = origin ∧ p.destination = destination
  have found : ∀ p, p ∈ b.passages.filter (fun p => p.origin = origin ∧ p.destination = destination)
      ↔ Scarce g b.id p ∧ p.origin = origin ∧ p.destination = destination := by
    simp [mem_passages member]
  generalize b.passages.filter (fun p => p.origin = origin ∧ p.destination = destination) = listed
    at sorted found
  match listed with
  | [] =>
    have nothing := (found ⟨origin, destination, share g origin destination⟩).2.mt List.not_mem_nil
    rw [if_neg fun both => nothing ⟨⟨both.1, both.2, rfl⟩, rfl, rfl⟩]
    rfl
  | [p] =>
    obtain ⟨⟨connects, few, exclusivity⟩, rfl, rfl⟩ := (found p).1 List.mem_cons_self
    rw [if_pos ⟨connects, few⟩, ← exclusivity]
    rfl
  | p :: q :: _ =>
    -- Two passages between the same modules would have to stand in some order.
    obtain ⟨scarce, rfl, rfl⟩ := (found p).1 List.mem_cons_self
    obtain ⟨other, sameOrigin, sameDestination⟩ :=
      (found q).1 (List.mem_cons_of_mem _ List.mem_cons_self)
    have same : p.exclusivity = q.exclusivity := by
      rw [scarce.2.2, other.2.2, sameOrigin, sameDestination]
    rcases List.rel_of_pairwise_cons sorted List.mem_cons_self with higher | ⟨-, before | ⟨-, before⟩⟩
    · rw [same, (other.isShare.faithful other.isShare).1] at higher
      exact absurd higher (lt_irrefl _)
    · exact absurd before (sameOrigin ▸ lt_irrefl _)
    · exact absurd before (sameDestination ▸ lt_irrefl _)

theorem length_filter_bridgers {origin destination : String}
    (few : (bridgers g origin destination).card ≤ 2) :
    ((all g).filter fun b => b.id ∈ bridgers g origin destination).length
      = (bridgers g origin destination).card := by
  have nodup : (((all g).filter fun b => b.id ∈ bridgers g origin destination).map
      Bridge.id).Nodup :=
    (nodup_ids g).sublist (List.filter_sublist.map Bridge.id)
  rw [← List.length_map Bridge.id, ← List.toFinset_card_of_nodup nodup]
  congr 1
  ext id
  simp only [List.mem_toFinset, List.mem_map, List.mem_filter, decide_eq_true_eq]
  constructor
  · rintro ⟨b, ⟨-, connects⟩, rfl⟩
    exact connects
  · intro connects
    obtain ⟨b, member, rfl⟩ := exists_mem_all_iff.2 ⟨origin, destination, connects, few⟩
    exact ⟨b, ⟨member, connects⟩, rfl⟩

theorem listedFor_all (g : CallGraph) (origin destination : String) :
    listedFor (all g) origin destination
      = if (bridgers g origin destination).card ≤ 2 then
          List.replicate (bridgers g origin destination).card (share g origin destination)
        else [] := by
  have each : listedFor (all g) origin destination = (all g).flatMap fun b =>
      if b.id ∈ bridgers g origin destination ∧ (bridgers g origin destination).card ≤ 2
        then [share g origin destination] else [] :=
    List.flatMap_congr fun b member => listedFor_singleton member origin destination
  rw [each]
  by_cases few : (bridgers g origin destination).card ≤ 2
  · simp only [few, and_true, if_true]
    rw [← length_filter_bridgers few]
    induction all g with
    | nil => rfl
    | cons b rest ih => by_cases connects : b.id ∈ bridgers g origin destination <;>
        simp [connects, ih, List.replicate_succ]
  · simp [few]

/-- What is listed for two modules adds up to one if one or two routines connect them, and to
    nothing otherwise. -/
theorem sum_listedFor (g : CallGraph) (origin destination : String) :
    ((listedFor (all g) origin destination).map Double.value).sum
      = if (bridgers g origin destination).card ∈ [1, 2] then 1 else 0 := by
  rw [listedFor_all]
  by_cases few : (bridgers g origin destination).card ≤ 2
  · by_cases nobody : (bridgers g origin destination).card = 0
    · simp [nobody]
    · have some := Nat.pos_of_ne_zero nobody
      have scale : ((bridgers g origin destination).card : ℚ) ≠ 0 := by exact_mod_cast nobody
      rw [if_pos few, if_pos (by simp; omega), List.map_replicate, List.sum_replicate, share,
        (Double.reads_one_div some few).value_eq, nsmul_eq_mul, mul_one_div_cancel scale]
  · rw [if_neg few, if_neg (by simp; omega)]
    rfl

end Conservation

/-- What a listed bridge says about its routine. -/
structure Describes (g : CallGraph) (b : Bridge) : Prop where
  home : g.home? b.id = some b.home
  passages : ∀ p, p ∈ b.passages ↔ b.id ∈ bridgers g p.origin p.destination ∧
    (bridgers g p.origin p.destination).card ≤ 2 ∧
    p.exclusivity = 1.0 / Float.ofNat (bridgers g p.origin p.destination).card
  values : ∀ p ∈ b.passages,
    Double.value p.exclusivity = 1 / (bridgers g p.origin p.destination).card
  ordered : b.passages.Pairwise fun p q => q.exclusivity < p.exclusivity ∨
    p.exclusivity = q.exclusivity ∧
      (p.origin < q.origin ∨ p.origin = q.origin ∧ p.destination < q.destination)
  score : ∃ best ∈ b.passages, b.score = best.exclusivity ∧
    ∀ p ∈ b.passages, p.exclusivity ≤ best.exclusivity

/-- The bridges of a call graph are the routines that connect two modules alone or with one other.
    Each is listed once, with its passages between such modules and the highest of their
    exclusivities, and the exclusivities of all passages between two modules make one whole. -/
theorem all_conserves_exclusivity (g : CallGraph) :
    (∀ id, (∃ b ∈ all g, b.id = id) ↔ ∃ origin destination,
      id ∈ bridgers g origin destination ∧ (bridgers g origin destination).card ≤ 2) ∧
    (∀ b ∈ all g, Describes g b) ∧
    ((all g).map Bridge.id).Nodup ∧
    ((all g).Pairwise fun left right =>
      right.score < left.score ∨ left.score = right.score ∧ left.id < right.id) ∧
    ∀ origin destination, ((listedFor (all g) origin destination).map Double.value).sum
      = if (bridgers g origin destination).card ∈ [1, 2] then 1 else 0 := by
  refine ⟨fun id => exists_mem_all_iff, fun b member => ?_, nodup_ids g, pairwise_all g,
    sum_listedFor g⟩
  exact {
    home := home?_of_mem_all member
    passages := fun p => mem_passages member
    values := fun p listed => ((mem_passages member).1 listed).value_eq
    ordered := pairwise_passages member
    score := exists_score member }

end LoadBearing.Bridge
