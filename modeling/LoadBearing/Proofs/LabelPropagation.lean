import Mathlib.Data.List.Count
import Mathlib.Data.List.Induction
import Mathlib.Data.Prod.Lex
import Mathlib.Logic.Function.Iterate
import Mathlib.Algebra.Order.BigOperators.Group.List
import LoadBearing.Proofs.Neighbourhood

/-! # Label propagation settles

Whenever a routine changes its label, the number of edges whose ends agree grows, or it stays and the
label gets smaller.  Both can happen only finitely often, so enough passes reach labels that a
further pass leaves alone, and there every routine carries the favourite label of its neighbours.

The non-trivial ingredient is `agreements_insert`: giving one routine a new label moves exactly the
edges at that routine, so the count changes by the support of the new label less that of the old.
-/

namespace LoadBearing.Labels

open Neighbourhood (Simple)

/-! ## Favourite labels -/

/-- The smallest among the most frequent labels. -/
def IsFavourite (labels : List String) (label : String) : Prop :=
  label ∈ labels ∧ ∀ name ∈ labels,
    labels.count name < labels.count label ∨ labels.count name = labels.count label ∧ label ≤ name

/-- Where a counted label stands: frequent labels come first, then small ones. -/
def place (entry : String × Nat) : ℕᵒᵈ ×ₗ String := toLex (OrderDual.toDual entry.2, entry.1)

theorem place_injective : Function.Injective place := by
  rintro ⟨label, count⟩ ⟨other, otherCount⟩ same
  obtain ⟨counts, labels⟩ := Prod.mk.inj (toLex.injective same)
  exact Prod.ext labels (OrderDual.toDual.injective counts)

theorem outranks_iff {one other : String × Nat} :
    outranks one other = true ↔ place one < place other := by
  simp [outranks, place, Prod.Lex.toLex_lt_toLex]

/-- A counted label that stands before all others. -/
def Wins (counts : List (String × Nat)) (best : String × Nat) : Prop :=
  best ∈ counts ∧ ∀ entry ∈ counts, place best ≤ place entry

theorem Wins.challenge {counts : List (String × Nat)} {best : String × Nat}
    (wins : Wins counts best) (entry : String × Nat) :
    ∃ next, challenge (some best) entry = some next ∧ Wins (counts ++ [entry]) next := by
  obtain ⟨member, first⟩ := wins
  rw [Labels.challenge]
  split
  next ahead =>
    refine ⟨best, rfl, List.mem_append_left _ member, List.forall_mem_append.2 ⟨first, ?_⟩⟩
    simpa using (outranks_iff.1 ahead).le
  next behind =>
    have before : place entry ≤ place best := not_lt.1 (mt outranks_iff.2 behind)
    refine ⟨entry, rfl, by simp, List.forall_mem_append.2 ⟨fun other earlier => ?_, by simp⟩⟩
    exact before.trans (first other earlier)

theorem Wins.foldl_challenge {counts : List (String × Nat)} {best : String × Nat}
    (wins : Wins counts best) (rest : List (String × Nat)) :
    ∃ last, rest.foldl Labels.challenge (some best) = some last ∧ Wins (counts ++ rest) last := by
  induction rest generalizing counts best with
  | nil => exact ⟨best, rfl, by simpa using wins⟩
  | cons entry rest ih =>
    obtain ⟨next, found, winsNext⟩ := wins.challenge entry
    rw [List.foldl_cons, found, List.append_cons]
    exact ih winsNext

theorem Wins.unique {counts : List (String × Nat)} {one other : String × Nat}
    (first : Wins counts one) (second : Wins counts other) : one = other :=
  place_injective (le_antisymm (first.2 other second.1) (second.2 one first.1))

theorem exists_leader {counts : List (String × Nat)} (nonempty : counts ≠ []) :
    ∃ best, leader? counts = some best ∧ Wins counts best := by
  obtain ⟨entry, rest, rfl⟩ := List.exists_cons_of_ne_nil nonempty
  have alone : Wins [entry] entry := ⟨List.mem_singleton_self _, by simp⟩
  exact alone.foldl_challenge rest

theorem leader?_eq_some_iff {counts : List (String × Nat)} {best : String × Nat} :
    leader? counts = some best ↔ Wins counts best := by
  by_cases empty : counts = []
  · simp [empty, leader?, Wins]
  · obtain ⟨last, found, wins⟩ := exists_leader empty
    rw [found, Option.some.injEq]
    exact ⟨fun same => same ▸ wins, wins.unique⟩

/-- The leader is the same in whatever order the counts are gone through. -/
theorem leader?_perm {counts other : List (String × Nat)} (perm : other.Perm counts) :
    leader? other = leader? counts := by
  ext best
  simp only [leader?_eq_some_iff, Wins, perm.mem_iff]

theorem ordered_occurrences (labels : List String) : Table.Ordered (occurrences labels) :=
  Table.Ordered.foldl (fun _ label ordered => ordered.update label _) labels Table.ordered_nil

theorem find?_occurrences (labels : List String) (label : String) :
    (occurrences labels).find? label = if label ∈ labels then some (labels.count label) else none := by
  -- The loop is seen from its end, where the table is that of the earlier labels.
  induction labels using List.reverseRecOn with
  | nil => rfl
  | append_singleton earlier last ih =>
    have step : occurrences (earlier ++ [last])
        = (occurrences earlier).update last fun count => count.getD 0 + 1 := by
      simp [occurrences]
    rw [step, Table.find?_update (ordered_occurrences earlier)]
    by_cases same : label = last
    · subst same
      by_cases before : label ∈ earlier
      · simp [ih, before]
      · simp [ih, before, List.count_eq_zero_of_not_mem before]
    · simp [ih, same, Ne.symm same]

theorem mem_occurrences {labels : List String} {entry : String × Nat} :
    entry ∈ occurrences labels ↔ entry.1 ∈ labels ∧ entry.2 = labels.count entry.1 := by
  have found : entry ∈ occurrences labels ↔ (occurrences labels).find? entry.1 = some entry.2 :=
    ⟨(ordered_occurrences labels).find?_of_mem, Table.mem_of_find?⟩
  rw [found, find?_occurrences]
  split <;> simp [*, eq_comm]

theorem wins_occurrences_iff {labels : List String} {label : String} :
    Wins (occurrences labels) (label, labels.count label) ↔ IsFavourite labels label := by
  constructor
  · rintro ⟨member, first⟩
    refine ⟨(mem_occurrences.1 member).1, fun name occurs => ?_⟩
    have ahead := first (name, labels.count name) (mem_occurrences.2 ⟨occurs, rfl⟩)
    simpa [place, Prod.Lex.toLex_le_toLex, eq_comm] using ahead
  · rintro ⟨member, first⟩
    refine ⟨mem_occurrences.2 ⟨member, rfl⟩, ?_⟩
    rintro ⟨name, count⟩ counted
    obtain ⟨occurs, frequency⟩ := mem_occurrences.1 counted
    obtain rfl : count = labels.count name := frequency
    simpa [place, Prod.Lex.toLex_le_toLex, eq_comm] using first name occurs

theorem favourite?_eq_some_iff {labels : List String} {label : String} :
    favourite? labels = some label ↔ IsFavourite labels label := by
  rw [← wins_occurrences_iff, ← leader?_eq_some_iff, favourite?, Option.map_eq_some_iff]
  constructor
  · rintro ⟨⟨name, count⟩, found, rfl⟩
    have counted := (mem_occurrences.1 (leader?_eq_some_iff.1 found).1).2
    rw [found, ← counted]
  · exact fun found => ⟨_, found, rfl⟩

/-- No order of the counts leads to another label. -/
theorem favourite?_of_perm {labels : List String} {counts : List (String × Nat)}
    (perm : counts.Perm (occurrences labels)) :
    (leader? counts).map Prod.fst = favourite? labels := by
  rw [leader?_perm perm, favourite?]

/-- There is a favourite label as soon as there is a label. -/
theorem favourite?_spec (labels : List String) :
    favourite? labels = none ∧ labels = [] ∨
      ∃ label, favourite? labels = some label ∧ IsFavourite labels label := by
  by_cases empty : labels = []
  · exact .inl ⟨by rw [empty]; rfl, empty⟩
  · obtain ⟨label, occurs⟩ := List.exists_mem_of_ne_nil labels empty
    have counted : (label, labels.count label) ∈ occurrences labels :=
      mem_occurrences.2 ⟨occurs, rfl⟩
    obtain ⟨best, found, -⟩ := exists_leader (List.ne_nil_of_mem counted)
    have favourite : favourite? labels = some best.1 := by rw [favourite?, found, Option.map_some]
    exact .inr ⟨best.1, favourite, favourite?_eq_some_iff.1 favourite⟩

/-! ## Agreeing edges -/

def agreements (near : Neighbourhood) (labels : Table String) : Nat :=
  near.links.countP fun link => labels.find? link.1 = labels.find? link.2

def around (near : Neighbourhood) (labels : Table String) (id : String) : List String :=
  (near.around id).filterMap labels.find?

theorem adopt_eq (near : Neighbourhood) (labels : Table String) (id : String) :
    adopt near labels id = match favourite? (around near labels id) with
      | none => labels
      | some label => labels.insert id label := rfl

theorem count_around (near : Neighbourhood) (labels : Table String) (id label : String) :
    (around near labels id).count label
      = (near.around id).countP fun other => labels.find? other = some label := by
  rw [around, List.count_filterMap]
  refine List.countP_congr fun other _ => ?_
  simp

/-- The edges at a routine agree as often as its own label stands in its neighbourhood. -/
theorem countP_touching {near : Neighbourhood} (simple : Simple near) {labels : Table String}
    {id label : String} (carries : labels.find? id = some label) :
    (near.links.filter (Neighbourhood.touches id)).countP
        (fun link => labels.find? link.1 = labels.find? link.2)
      = (around near labels id).count label := by
  rw [count_around, ← (simple.touching_perm id).countP_eq, List.countP_map]
  refine List.countP_congr fun link member => ?_
  -- An edge at the routine has it at one end, and the neighbour at the far one.
  have touching := (List.mem_filter.1 member).2
  simp only [Neighbourhood.touches, Bool.or_eq_true, decide_eq_true_eq] at touching
  simp only [Function.comp_apply, decide_eq_true_eq, Neighbourhood.far]
  split
  next first =>
    rw [first, carries, eq_comm]
    exact decide_eq_true_iff.symm
  next first =>
    rw [touching.resolve_left first, carries]
    exact decide_eq_true_iff.symm

/-- Relabelling a routine changes the agreement of the edges at it and of no others. -/
theorem agreements_insert {near : Neighbourhood} (simple : Simple near) {labels : Table String}
    {id old : String} (carries : labels.find? id = some old) (new : String) :
    agreements near (labels.insert id new) + (around near labels id).count old
      = agreements near labels + (around near labels id).count new := by
  have carriesNew : (labels.insert id new).find? id = some new := by
    rw [Table.find?_insert, if_pos rfl]
  -- The neighbours keep their labels: a routine is not its own neighbour.
  have sameAround : around near (labels.insert id new) id = around near labels id := by
    refine List.filterMap_congr fun other member => ?_
    rw [Table.find?_insert, if_neg]
    rintro rfl
    exact simple.irrefl _ member
  have elsewhere :
      (near.links.filter fun link => !Neighbourhood.touches id link).countP
          (fun link => (labels.insert id new).find? link.1 = (labels.insert id new).find? link.2)
        = (near.links.filter fun link => !Neighbourhood.touches id link).countP
          (fun link => labels.find? link.1 = labels.find? link.2) := by
    refine List.countP_congr fun link member => ?_
    have apart := (List.mem_filter.1 member).2
    simp only [Neighbourhood.touches, Bool.not_eq_true', Bool.or_eq_false_iff,
      decide_eq_false_iff_not] at apart
    rw [Table.find?_insert, Table.find?_insert, if_neg apart.1, if_neg apart.2]
  have splitNew := countP_touching simple carriesNew
  have splitOld := countP_touching simple carries
  rw [sameAround] at splitNew
  rw [agreements, agreements,
    List.countP_eq_countP_filter_add _ _ (Neighbourhood.touches id),
    List.countP_eq_countP_filter_add near.links
      (fun link => labels.find? link.1 = labels.find? link.2) (Neighbourhood.touches id),
    splitNew, splitOld, elsewhere]
  omega

/-! ## One update -/

/-- Labels for exactly the routines of a neighbourhood, taken from among them, where a routine
    without neighbours carries its own. -/
structure Labelling (near : Neighbourhood) (labels : Table String) : Prop where
  ordered : Table.Ordered labels
  nodes : ∀ id, id ∈ Table.keys labels ↔ id ∈ Table.keys near
  values : ∀ {id label}, labels.find? id = some label → label ∈ Table.keys near
  isolated : ∀ id ∈ Table.keys near, near.around id = [] → labels.find? id = some id

variable {near : Neighbourhood} {labels : Table String}

theorem Labelling.carries (labelling : Labelling near labels) {id : String}
    (node : id ∈ Table.keys near) : ∃ label, labels.find? id = some label :=
  Table.mem_keys_iff.1 ((labelling.nodes id).2 node)

theorem Labelling.around_eq_nil (labelling : Labelling near labels) (simple : Simple near)
    {id : String} (empty : around near labels id = []) : near.around id = [] := by
  rw [around, List.filterMap_eq_nil_iff] at empty
  refine List.eq_nil_iff_forall_not_mem.2 fun other member => ?_
  obtain ⟨label, carries⟩ := labelling.carries (simple.closed member)
  rw [empty other member] at carries
  cases carries

/-- What an update can do: nothing to a routine without neighbours, and to any other give it the
    favourite label of its neighbours. -/
theorem Labelling.adopt_cases (labelling : Labelling near labels) (simple : Simple near)
    (id : String) :
    (near.around id = [] ∧ adopt near labels id = labels) ∨
      ∃ new, IsFavourite (around near labels id) new ∧
        adopt near labels id = labels.insert id new := by
  rcases favourite?_spec (around near labels id) with ⟨none, empty⟩ | ⟨new, some, favourite⟩
  · left
    refine ⟨labelling.around_eq_nil simple empty, ?_⟩
    rw [adopt_eq, none]
  · right
    refine ⟨new, favourite, ?_⟩
    rw [adopt_eq, some]

theorem Labelling.adopt (labelling : Labelling near labels) (simple : Simple near) {id : String}
    (node : id ∈ Table.keys near) : Labelling near (adopt near labels id) := by
  rcases labelling.adopt_cases simple id with ⟨-, unchanged⟩ | ⟨new, favourite, changed⟩
  · rw [unchanged]; exact labelling
  · rw [changed]
    obtain ⟨other, member, carries⟩ := List.mem_filterMap.1 favourite.1
    refine ⟨labelling.ordered.insert id new, fun key => ?_, fun {key label} found => ?_,
      fun key keyNode alone => ?_⟩
    · rw [Table.insert, Table.mem_keys_update, labelling.nodes]
      constructor
      · rintro (rfl | member)
        · exact node
        · exact member
      · exact .inr
    · rw [Table.find?_insert] at found
      split at found
      · cases found; exact labelling.values carries
      · exact labelling.values found
    · -- The new label came from a neighbour, so the routine that got it is not isolated.
      have different : key ≠ id := by
        rintro rfl
        rw [alone] at member
        cases member
      rw [Table.find?_insert, if_neg different]
      exact labelling.isolated key keyNode alone

/-- An update that changes a label makes more edges agree, or keeps their number and makes the label
    smaller. -/
theorem Labelling.adopt_improves (labelling : Labelling near labels) (simple : Simple near)
    {id : String} (node : id ∈ Table.keys near)
    (changes : (Labels.adopt near labels id).find? id ≠ labels.find? id) :
    ∃ old new, labels.find? id = some old ∧
      Labels.adopt near labels id = labels.insert id new ∧ new ∈ Table.keys near ∧
      (agreements near labels < agreements near (Labels.adopt near labels id) ∨
        agreements near (Labels.adopt near labels id) = agreements near labels ∧ new < old) := by
  obtain ⟨old, carries⟩ := labelling.carries node
  rcases labelling.adopt_cases simple id with ⟨-, unchanged⟩ | ⟨new, favourite, changed⟩
  · rw [unchanged] at changes
    exact absurd rfl changes
  · have different : new ≠ old := by
      rintro rfl
      rw [changed, Table.find?_insert, if_pos rfl, carries] at changes
      exact changes rfl
    obtain ⟨other, -, otherCarries⟩ := List.mem_filterMap.1 favourite.1
    refine ⟨old, new, carries, changed, labelling.values otherCarries, ?_⟩
    have balance := agreements_insert simple carries new
    rw [changed]
    -- The old label may have lost all its support, and then it is not among the candidates.
    by_cases supported : old ∈ around near labels id
    · rcases favourite.2 old supported with less | ⟨same, smaller⟩
      · exact .inl (by omega)
      · exact .inr ⟨by omega, lt_of_le_of_ne smaller different⟩
    · have none : (around near labels id).count old = 0 := List.count_eq_zero.2 supported
      have some : 0 < (around near labels id).count new := List.count_pos_iff.2 favourite.1
      exact .inl (by omega)

/-! ## Passes -/

/-- How far the labels of all routines lie above the smallest one. -/
def height (near : Neighbourhood) (labels : Table String) : Nat :=
  total ((Table.keys near).map fun id =>
    (Table.keys near).countP fun lower => (labels.find? id).any (lower < ·))

/-- What every change of a label lowers: first the number of edges that do not agree, then the
    height of the labels. -/
def potential (near : Neighbourhood) (labels : Table String) : Nat ×ₗ Nat :=
  toLex (near.links.length - agreements near labels, height near labels)

theorem countP_lt_countP {names : List String} {smaller larger : String → Bool}
    (imp : ∀ name, smaller name = true → larger name = true) {extra : String}
    (member : extra ∈ names) (inLarger : larger extra = true)
    (notSmaller : ¬ smaller extra = true) :
    names.countP smaller < names.countP larger := by
  have nested : names.countP smaller = (names.filter larger).countP smaller := by
    rw [List.countP_filter]
    refine List.countP_congr fun name _ => ?_
    rw [Bool.and_eq_true, iff_self_and]
    exact imp name
  rw [nested, List.countP_eq_length_filter (p := larger), List.countP_lt_length_iff]
  exact ⟨extra, List.mem_filter.2 ⟨member, inLarger⟩, by simpa using notSmaller⟩

theorem height_insert_lt {id old new : String} (node : id ∈ Table.keys near)
    (carries : labels.find? id = some old) (newNode : new ∈ Table.keys near) (smaller : new < old) :
    height near (labels.insert id new) < height near labels := by
  refine List.sum_lt_sum _ _ (fun other _ => ?_) ⟨id, node, ?_⟩
  · rw [Table.find?_insert]
    split
    next same =>
      subst same
      rw [carries]
      refine List.countP_mono_left fun lower _ below => ?_
      simp only [Option.any_some, decide_eq_true_eq] at below ⊢
      exact below.trans smaller
    next => exact le_refl _
  · rw [Table.find?_insert, if_pos rfl, carries]
    -- The new label itself lies below the old one and not below itself.
    refine countP_lt_countP (fun lower below => ?_) newNode ?_ ?_
    · simp only [Option.any_some, decide_eq_true_eq] at below ⊢
      exact below.trans smaller
    · simpa only [Option.any_some, decide_eq_true_eq] using smaller
    · simp only [Option.any_some, decide_eq_true_eq]
      exact lt_irrefl new

theorem Labelling.adopt_eq_self (labelling : Labelling near labels) (simple : Simple near)
    {id : String} (same : (Labels.adopt near labels id).find? id = labels.find? id) :
    Labels.adopt near labels id = labels := by
  rcases labelling.adopt_cases simple id with ⟨-, unchanged⟩ | ⟨new, -, changed⟩
  · exact unchanged
  · rw [changed, Table.find?_insert, if_pos rfl] at same
    rw [changed]
    exact labelling.ordered.insert_eq_self same.symm

theorem Labelling.adopt_potential (labelling : Labelling near labels) (simple : Simple near)
    {id : String} (node : id ∈ Table.keys near) :
    Labels.adopt near labels id = labels ∨
      potential near (Labels.adopt near labels id) < potential near labels := by
  by_cases same : (Labels.adopt near labels id).find? id = labels.find? id
  · exact .inl (labelling.adopt_eq_self simple same)
  · right
    obtain ⟨old, new, carries, changed, newNode, better⟩ :=
      labelling.adopt_improves simple node same
    have bound : agreements near (Labels.adopt near labels id) ≤ near.links.length :=
      List.countP_le_length
    rw [potential, potential, Prod.Lex.toLex_lt_toLex]
    rcases better with more | ⟨equal, smaller⟩
    · exact .inl (by omega)
    · refine .inr ⟨by rw [equal], ?_⟩
      rw [changed]
      exact height_insert_lt node carries newNode smaller

/-- A series of updates leaves the labels alone, each update by itself, or lowers the potential. -/
theorem Labelling.foldl_adopt (labelling : Labelling near labels) (simple : Simple near)
    {ids : List String} (nodes : ∀ id ∈ ids, id ∈ Table.keys near) :
    Labelling near (ids.foldl (Labels.adopt near) labels) ∧
      ((ids.foldl (Labels.adopt near) labels = labels ∧
          ∀ id ∈ ids, Labels.adopt near labels id = labels) ∨
        potential near (ids.foldl (Labels.adopt near) labels) < potential near labels) := by
  induction ids generalizing labels with
  | nil => exact ⟨labelling, .inl ⟨rfl, by simp⟩⟩
  | cons id rest ih =>
    have node := nodes id List.mem_cons_self
    obtain ⟨labellingAll, progress⟩ := ih (labelling.adopt simple node)
      fun other member => nodes other (List.mem_cons_of_mem _ member)
    refine ⟨labellingAll, ?_⟩
    rw [List.foldl_cons]
    -- Once the potential has gone down, the rest of the series cannot bring it back up.
    rcases labelling.adopt_potential simple node with unchanged | lower
    · rw [unchanged] at progress ⊢
      rcases progress with ⟨same, each⟩ | lower
      · exact .inl ⟨same, List.forall_mem_cons.2 ⟨unchanged, each⟩⟩
      · exact .inr lower
    · rcases progress with ⟨same, -⟩ | lowerStill
      · rw [same]; exact .inr lower
      · exact .inr (lowerStill.trans lower)

theorem Labelling.pass (labelling : Labelling near labels) (simple : Simple near) :
    Labelling near (pass near labels) :=
  (labelling.foldl_adopt simple fun _ member => member).1

theorem Labelling.iterate (labelling : Labelling near labels) (simple : Simple near)
    (passes : Nat) : Labelling near ((Labels.pass near)^[passes] labels) := by
  induction passes with
  | zero => exact labelling
  | succ passes ih =>
    rw [Function.iterate_succ_apply']
    exact ih.pass simple

/-- A pass that ends where it began changed nothing on the way. -/
theorem Labelling.adopt_of_pass (labelling : Labelling near labels) (simple : Simple near)
    (settled : Labels.pass near labels = labels) {id : String} (node : id ∈ Table.keys near) :
    Labels.adopt near labels id = labels := by
  rcases (labelling.foldl_adopt simple fun _ member => member).2 with ⟨-, each⟩ | lower
  · exact each id node
  · have same : (Table.keys near).foldl (Labels.adopt near) labels = labels := settled
    rw [same] at lower
    exact absurd lower (lt_irrefl _)

/-- Some number of passes reaches labels that a further pass leaves alone. -/
theorem Labelling.exists_settled (labelling : Labelling near labels) (simple : Simple near) :
    ∃ passes, Labels.pass near ((Labels.pass near)^[passes] labels)
      = (Labels.pass near)^[passes] labels := by
  induction h : potential near labels using WellFoundedLT.induction generalizing labels with
  | ind value ih =>
    rcases (labelling.foldl_adopt simple fun _ member => member).2 with ⟨same, -⟩ | lower
    · exact ⟨0, same⟩
    · obtain ⟨passes, settled⟩ := ih _ (h ▸ lower) (labelling.pass simple) rfl
      exact ⟨passes + 1, settled⟩

theorem settle_eq_iterate (near : Neighbourhood) (passes : Nat) (labels : Table String) :
    settle near passes labels = (pass near)^[passes] labels := by
  induction passes generalizing labels with
  | zero => rfl
  | succ passes ih =>
    rw [settle]
    split
    next same => exact (Function.iterate_fixed same (passes + 1)).symm
    next => exact ih (pass near labels)

theorem keys_start (near : Neighbourhood) : Table.keys (start near) = Table.keys near := by
  rw [start, Table.keys, List.map_map]
  exact List.map_id _

theorem find?_start (simple : Simple near) {id : String} (node : id ∈ Table.keys near) :
    (start near).find? id = some id := by
  have ordered : Table.Ordered (start near) := by
    rw [Table.Ordered, keys_start]
    exact simple.ordered
  exact ordered.find?_of_mem (List.mem_map.2 ⟨id, node, rfl⟩)

theorem labelling_start (simple : Simple near) : Labelling near (start near) := by
  refine ⟨?_, fun id => by rw [keys_start], fun {id label} found => ?_, fun id node _ => ?_⟩
  · rw [Table.Ordered, keys_start]
    exact simple.ordered
  · obtain ⟨key, node, same⟩ := List.mem_map.1 (Table.mem_of_find? found)
    cases same
    exact node
  · exact find?_start simple node

/-! ## Runs -/

/-- The labels in the course of a run: after some passes and some updates of the next one. -/
def midway (near : Neighbourhood) (passes updates : Nat) : Table String :=
  ((Table.keys near).take updates).foldl (adopt near) (settle near passes (start near))

theorem midway_next_pass (near : Neighbourhood) (passes : Nat) :
    midway near (passes + 1) 0 = midway near passes (Table.keys near).length := by
  rw [midway, midway, List.take_length, settle_eq_iterate, settle_eq_iterate,
    Function.iterate_succ_apply']
  rfl

theorem midway_succ {updates : Nat} {id : String}
    (next : (Table.keys near)[updates]? = some id) (passes : Nat) :
    midway near passes (updates + 1) = adopt near (midway near passes updates) id := by
  rw [midway, List.take_add_one, next, List.foldl_append]
  rfl

theorem labelling_midway (simple : Simple near) (passes updates : Nat) :
    Labelling near (midway near passes updates) := by
  have beforePass : Labelling near (settle near passes (start near)) := by
    rw [settle_eq_iterate]
    exact (labelling_start simple).iterate simple passes
  exact (beforePass.foldl_adopt simple fun id member => List.mem_of_mem_take member).1

/-- Labels that a pass leaves alone give every routine the favourite label of its neighbours. -/
theorem Labelling.favourite_of_pass (labelling : Labelling near labels) (simple : Simple near)
    (settled : Labels.pass near labels = labels) {id label : String}
    (carries : labels.find? id = some label) (connected : near.around id ≠ []) :
    IsFavourite (around near labels id) label := by
  have node : id ∈ Table.keys near :=
    (labelling.nodes id).1 (Table.mem_keys_iff.2 ⟨label, carries⟩)
  have unchanged := labelling.adopt_of_pass simple settled node
  rcases labelling.adopt_cases simple id with ⟨alone, -⟩ | ⟨new, favourite, changed⟩
  · exact absurd alone connected
  · rw [unchanged] at changed
    rw [changed, Table.find?_insert, if_pos rfl] at carries
    cases carries
    exact favourite

open Neighbourhood in
/-- Label propagation converges.  In a run, each update that changes a label makes more edges agree,
    or keeps the number of agreeing edges and makes the label smaller; from some number of passes on
    the labels are the same, and they are the favourites of the neighbourhoods. -/
theorem propagation_converges (g : CallGraph) :
    let near := Neighbourhood.of g
    (near.links.Nodup ∧ ∀ one other, (one, other) ∈ near.links ↔ one < other ∧ Linked g one other) ∧
    (∀ passes, midway near (passes + 1) 0 = midway near passes (Table.keys near).length) ∧
    (∀ passes updates id, (Table.keys near)[updates]? = some id →
      midway near passes (updates + 1) = adopt near (midway near passes updates) id ∧
      ((midway near passes (updates + 1)).find? id ≠ (midway near passes updates).find? id →
        agreements near (midway near passes updates)
            < agreements near (midway near passes (updates + 1)) ∨
          agreements near (midway near passes (updates + 1))
              = agreements near (midway near passes updates) ∧
            ∃ old new, (midway near passes updates).find? id = some old ∧
              (midway near passes (updates + 1)).find? id = some new ∧ new < old)) ∧
    ∃ (enough : Nat) (final : Table String),
      (∀ search : ClusterSearch, enough ≤ search.maxPasses → search.labels g = final) ∧
      (∀ id, id ∈ Table.keys final ↔ IsNode g id) ∧
      ∀ id label, final.find? id = some label →
        ((∃ other, Linked g id other) → IsFavourite (Labels.around near final id) label) ∧
        ((¬ ∃ other, Linked g id other) → label = id) := by
  intro near
  have simple : Simple near := simple_of g
  refine ⟨⟨simple.nodup_links, fun one other => ?_⟩, midway_next_pass near,
    fun passes updates id next => ?_, ?_⟩
  · rw [mem_links, mem_around_of]
  · have step := midway_succ next passes
    refine ⟨step, fun changes => ?_⟩
    rw [step] at changes ⊢
    obtain ⟨old, new, carries, changed, -, better⟩ :=
      (labelling_midway simple passes updates).adopt_improves simple
        (List.mem_of_getElem? next) changes
    rcases better with more | ⟨equal, smaller⟩
    · exact .inl more
    · refine .inr ⟨equal, old, new, carries, ?_, smaller⟩
      rw [changed, Table.find?_insert, if_pos rfl]
  · obtain ⟨enough, settled⟩ := (labelling_start simple).exists_settled simple
    have labelling := (labelling_start simple).iterate simple enough
    refine ⟨enough, (pass near)^[enough] (start near), fun search large => ?_, fun id => ?_,
      fun id label carries => ⟨fun ⟨other, linked⟩ => ?_, fun alone => ?_⟩⟩
    · -- Passes past the settled labels change nothing.
      rw [ClusterSearch.labels, settle_eq_iterate, ← Nat.sub_add_cancel large,
        Function.iterate_add_apply]
      exact Function.iterate_fixed settled _
    · rw [labelling.nodes, mem_keys_of]
    · have connected : near.around id ≠ [] := List.ne_nil_of_mem (mem_around_of.2 linked)
      exact labelling.favourite_of_pass simple settled carries connected
    · have isolated : near.around id = [] :=
        List.eq_nil_iff_forall_not_mem.2 fun other member => alone ⟨other, mem_around_of.1 member⟩
      have node : id ∈ Table.keys near :=
        (labelling.nodes id).1 (Table.mem_keys_iff.2 ⟨label, carries⟩)
      rw [labelling.isolated id node isolated] at carries
      cases carries
      rfl

end LoadBearing.Labels
