import Mathlib.Data.Finset.Card
import Mathlib.Order.Bounds.Basic
import LoadBearing.History.Activity
import LoadBearing.Proofs.Table

/-! # The activity log counts commits

The log is filled in one pass over the commits.  Its contents are described without that pass: the
activity of a routine counts the commits whose reach holds the routine, and the count for a pair
takes those of them that hold both and are not broad.  The description does not mention the order of
the commits, so the log does not depend on it.

The non-trivial ingredient is `find?_add`: one commit changes the entries of the routines it touches,
each once, by what it records there and then shares.
-/

namespace LoadBearing.ActivityLog

/-! ## The reach of a commit -/

/-- Some change of the commit means the file of a routine with this identity and meets its span. -/
def Touches (g : CallGraph) (index : PathIndex) (c : Commit) (id : String) : Prop :=
  ∃ r ∈ g.routines, r.id = id ∧ ∃ change ∈ c.changes, index.resolve? change.file = some r.file ∧
    ∃ range ∈ change.ranges, range.start ≤ r.endLine ∧ r.line ≤ range.stop

instance (g : CallGraph) (index : PathIndex) (c : Commit) (id : String) :
    Decidable (Touches g index c id) :=
  inferInstanceAs (Decidable (∃ r ∈ g.routines, r.id = id ∧ ∃ change ∈ c.changes,
    index.resolve? change.file = some r.file ∧
      ∃ range ∈ change.ranges, range.start ≤ r.endLine ∧ r.line ≤ range.stop))

def reach (g : CallGraph) (index : PathIndex) (c : Commit) : Finset String :=
  (g.routines.map Routine.id).toFinset.filter fun id => Touches g index c id

variable {g : CallGraph} {index : PathIndex} {limit : Nat}

theorem mem_reach {c : Commit} {id : String} : id ∈ reach g index c ↔ Touches g index c id := by
  rw [reach, Finset.mem_filter, List.mem_toFinset, List.mem_map, and_iff_right_iff_imp]
  rintro ⟨r, member, same, -⟩
  exact ⟨r, member, same⟩

theorem mem_touched {c : Commit} {id : String} :
    id ∈ touched g index c ↔ id ∈ reach g index c := by
  rw [mem_reach, touched, Roster.mem_ofList, List.mem_flatMap]
  constructor
  · rintro ⟨change, inChanges, member⟩
    split at member
    · cases member
    next file resolved =>
      obtain ⟨r, hit, rfl⟩ := List.mem_map.1 member
      simp only [List.mem_filter, Bool.and_eq_true, decide_eq_true_eq, List.any_eq_true,
        Routine.overlaps] at hit
      obtain ⟨inRoutines, sameFile, range, inRanges, above, below⟩ := hit
      exact ⟨r, inRoutines, rfl, change, inChanges, sameFile ▸ resolved, range, inRanges, above,
        below⟩
  · rintro ⟨r, inRoutines, rfl, change, inChanges, resolved, range, inRanges, above, below⟩
    refine ⟨change, inChanges, ?_⟩
    rw [resolved]
    refine List.mem_map.2 ⟨r, ?_, rfl⟩
    simp only [List.mem_filter, Bool.and_eq_true, decide_eq_true_eq, List.any_eq_true,
      Routine.overlaps]
    exact ⟨inRoutines, trivial, range, inRanges, above, below⟩

theorem nodup_touched (g : CallGraph) (index : PathIndex) (c : Commit) :
    (touched g index c).Nodup :=
  (Roster.ordered_ofList _).nodup

theorem length_touched (g : CallGraph) (index : PathIndex) (c : Commit) :
    (touched g index c).length = (reach g index c).card := by
  rw [← List.toFinset_card_of_nodup (nodup_touched g index c)]
  congr 1
  ext id
  rw [List.mem_toFinset, mem_touched]

/-! ## One commit -/

/-- What a commit adds to the activity of a routine that it touches. -/
def advance (g : CallGraph) (index : PathIndex) (limit : Nat) (c : Commit) (id : String)
    (a : Activity) : Activity :=
  if limit < (touched g index c).length then a.record c
  else (a.record c).share ((touched g index c).filter (· ≠ id))

theorem ordered_recordAll {activities : Table Activity} (ordered : activities.Ordered) (c : Commit)
    (ids : List String) : (recordAll activities c ids).Ordered :=
  Table.Ordered.foldl (fun _ _ ordered => ordered.update _ _) ids ordered

theorem ordered_shareAll {activities : Table Activity} (ordered : activities.Ordered)
    (ids : List String) : (shareAll activities ids).Ordered :=
  Table.Ordered.foldl (fun _ _ ordered => ordered.update _ _) ids ordered

theorem ordered_add {log : ActivityLog} (ordered : log.activities.Ordered) (c : Commit) :
    (add g index limit log c).activities.Ordered := by
  rw [add]
  split
  · exact ordered_recordAll ordered c _
  · exact ordered_shareAll (ordered_recordAll ordered c _) _

/-- A commit changes the entries of the routines it touches and no others. -/
theorem find?_add {log : ActivityLog} (ordered : log.activities.Ordered) (c : Commit)
    (id : String) :
    (add g index limit log c).activities.find? id
      = if id ∈ reach g index c
        then some (advance g index limit c id ((log.activities.find? id).getD {}))
        else log.activities.find? id := by
  have nodup := nodup_touched g index c
  have recorded : ∀ key, (recordAll log.activities c (touched g index c)).find? key
      = if key ∈ touched g index c then some (((log.activities.find? key).getD {}).record c)
        else log.activities.find? key :=
    Table.find?_foldl_update ordered nodup fun _ old => (old.getD {}).record c
  simp only [← mem_touched]
  rw [add]
  by_cases broad : limit < (touched g index c).length
  · rw [if_pos broad, recorded]
    simp only [advance, if_pos broad]
  · rw [if_neg broad]
    -- Sharing is a second round of updates over the same routines.
    have shared := Table.find?_foldl_update
      (ordered_recordAll ordered c (touched g index c)) nodup
      (fun id old => (old.getD {}).share ((touched g index c).filter (· ≠ id))) id
    refine shared.trans ?_
    rw [recorded]
    by_cases member : id ∈ touched g index c
    · simp only [if_pos member, advance, if_neg broad, Option.getD_some]
    · simp only [if_neg member]

/-! ## Counting -/

def commitCount (g : CallGraph) (index : PathIndex) (commits : List Commit) (id : String) : Nat :=
  commits.countP fun c => id ∈ reach g index c

def fixCount (g : CallGraph) (index : PathIndex) (commits : List Commit) (id : String) : Nat :=
  commits.countP fun c => id ∈ reach g index c ∧ c.isFix = true

/-- The number of commits that touch both of two routines and are not broad. -/
def pairCount (g : CallGraph) (index : PathIndex) (limit : Nat) (commits : List Commit)
    (id other : String) : Nat :=
  commits.countP fun c =>
    id ∈ reach g index c ∧ other ∈ reach g index c ∧ (reach g index c).card ≤ limit

def dates (g : CallGraph) (index : PathIndex) (commits : List Commit) (id : String) : Set Int :=
  {date | ∃ c ∈ commits, id ∈ reach g index c ∧ c.date = date}

/-- An activity tells the counts of some commits.  The dates mean something only if one of the
    commits touches the routine. -/
structure Tells (g : CallGraph) (index : PathIndex) (limit : Nat) (past : List Commit)
    (id : String) (a : Activity) : Prop where
  commits : a.commits = commitCount g index past id
  fixes : a.fixes = fixCount g index past id
  orderedAuthors : Roster.Ordered a.authors
  authors : ∀ author, author ∈ a.authors ↔
    ∃ c ∈ past, id ∈ reach g index c ∧ c.author = author
  firstSeen : a.commits ≠ 0 → IsLeast (dates g index past id) a.firstSeen
  lastSeen : a.commits ≠ 0 → IsGreatest (dates g index past id) a.lastSeen
  orderedTogether : a.together.Ordered
  together : ∀ other, a.together.find? other
    = if other ≠ id ∧ 0 < pairCount g index limit past id other
      then some (pairCount g index limit past id other) else none

variable {commits : List Commit} {c : Commit} {id : String} {a : Activity}

theorem tells_nil (g : CallGraph) (index : PathIndex) (limit : Nat) (id : String) :
    Tells g index limit [] id {} := by
  refine ⟨rfl, rfl, List.Pairwise.nil, by simp, fun some => absurd rfl some,
    fun some => absurd rfl some, Table.ordered_nil, fun other => ?_⟩
  simp [pairCount]

theorem dates_append (commits : List Commit) (touches : id ∈ reach g index c) :
    dates g index (commits ++ [c]) id = insert c.date (dates g index commits id) := by
  ext date
  simp only [dates, List.mem_append, List.mem_singleton, Set.mem_ofPred_eq, Set.mem_insert_iff]
  constructor
  · rintro ⟨d, earlier | rfl, reached, rfl⟩
    · exact .inr ⟨d, earlier, reached, rfl⟩
    · exact .inl rfl
  · rintro (rfl | ⟨d, earlier, reached, rfl⟩)
    · exact ⟨c, .inr rfl, touches, rfl⟩
    · exact ⟨d, .inl earlier, reached, rfl⟩

theorem Tells.dates_eq_empty (tells : Tells g index limit commits id a) (none : a.commits = 0) :
    dates g index commits id = ∅ := by
  rw [tells.commits, commitCount, List.countP_eq_zero] at none
  refine Set.eq_empty_of_forall_notMem ?_
  rintro date ⟨d, member, reached, -⟩
  exact none d member (decide_eq_true reached)

/-- Recording a commit counts it everywhere but in the pairs. -/
theorem Tells.record (tells : Tells g index limit commits id a) (touches : id ∈ reach g index c) :
    (a.record c).commits = commitCount g index (commits ++ [c]) id ∧
      (a.record c).fixes = fixCount g index (commits ++ [c]) id ∧
      Roster.Ordered (a.record c).authors ∧
      (∀ author, author ∈ (a.record c).authors ↔
        ∃ d ∈ commits ++ [c], id ∈ reach g index d ∧ d.author = author) ∧
      IsLeast (dates g index (commits ++ [c]) id) (a.record c).firstSeen ∧
      IsGreatest (dates g index (commits ++ [c]) id) (a.record c).lastSeen := by
  refine ⟨?_, ?_, tells.orderedAuthors.insert _, fun author => ?_, ?_, ?_⟩
  · simp [Activity.record, tells.commits, commitCount, touches]
  · cases fix : c.isFix <;> simp [Activity.record, tells.fixes, fixCount, touches, fix]
  · simp only [Activity.record, Roster.mem_insert, tells.authors, List.mem_append,
      List.mem_singleton]
    constructor
    · rintro (rfl | ⟨d, earlier, reached, rfl⟩)
      · exact ⟨c, .inr rfl, touches, rfl⟩
      · exact ⟨d, .inl earlier, reached, rfl⟩
    · rintro ⟨d, earlier | rfl, reached, rfl⟩
      · exact .inr ⟨d, earlier, reached, rfl⟩
      · exact .inl rfl
  · -- The first commit sets the date; the default before it counts for nothing.
    rw [dates_append commits touches, Activity.record]
    by_cases first : a.commits = 0
    · simp [first, tells.dates_eq_empty first]
    · simp only [if_neg first]
      rw [min_comm]
      exact (tells.firstSeen first).insert c.date
  · rw [dates_append commits touches, Activity.record]
    by_cases first : a.commits = 0
    · simp [first, tells.dates_eq_empty first]
    · simp only [if_neg first]
      rw [max_comm]
      exact (tells.lastSeen first).insert c.date

theorem Tells.together_advance (tells : Tells g index limit commits id a)
    (touches : id ∈ reach g index c) (other : String) :
    (advance g index limit c id a).together.find? other
      = if other ≠ id ∧ 0 < pairCount g index limit (commits ++ [c]) id other
        then some (pairCount g index limit (commits ++ [c]) id other) else none := by
  have counted : pairCount g index limit (commits ++ [c]) id other
      = pairCount g index limit commits id other +
        if other ∈ reach g index c ∧ (reach g index c).card ≤ limit then 1 else 0 := by
    simp [pairCount, touches]
  rw [counted, advance, length_touched]
  by_cases broad : limit < (reach g index c).card
  · have uncounted : ¬ (other ∈ reach g index c ∧ (reach g index c).card ≤ limit) :=
      fun both => Nat.not_le.2 broad both.2
    rw [if_pos broad, if_neg uncounted, Nat.add_zero]
    exact tells.together other
  · rw [if_neg broad]
    have shared := Table.find?_foldl_update tells.orderedTogether
      ((nodup_touched g index c).filter fun key => key ≠ id)
      (fun _ (count : Option Nat) => count.getD 0 + 1) other
    refine Eq.trans shared ?_
    rw [tells.together]
    simp only [List.mem_filter, mem_touched, Nat.le_of_not_lt broad, and_true, decide_eq_true_eq]
    -- A routine is never its own companion, and a companion's entry appears with its first commit.
    by_cases self : other = id
    · simp [self]
    · by_cases reached : other ∈ reach g index c
      · by_cases before : 0 < pairCount g index limit commits id other
        · simp [self, reached, before]
        · simp [self, reached, Nat.eq_zero_of_not_pos before]
      · simp [self, reached]

theorem Tells.advance (tells : Tells g index limit commits id a) (touches : id ∈ reach g index c) :
    Tells g index limit (commits ++ [c]) id (advance g index limit c id a) := by
  obtain ⟨counted, fixed, orderedAuthors, authors, first, last⟩ := tells.record touches
  have pairs := tells.together_advance touches
  -- Sharing touches nothing but the pair counts.
  rw [ActivityLog.advance] at pairs ⊢
  split at pairs
  · rw [if_pos ‹_›]
    exact ⟨counted, fixed, orderedAuthors, authors, fun _ => first, fun _ => last,
      tells.orderedTogether, pairs⟩
  · rw [if_neg ‹_›]
    exact ⟨counted, fixed, orderedAuthors, authors, fun _ => first, fun _ => last,
      Table.Ordered.foldl (fun _ _ ordered => ordered.update _ _) _ tells.orderedTogether, pairs⟩

/-- A commit that does not touch a routine changes no count of it. -/
theorem Tells.skip (tells : Tells g index limit commits id a) (apart : id ∉ reach g index c) :
    Tells g index limit (commits ++ [c]) id a := by
  have sameDates : dates g index (commits ++ [c]) id = dates g index commits id := by
    ext date
    simp only [dates, List.mem_append, List.mem_singleton, Set.mem_ofPred_eq]
    constructor
    · rintro ⟨d, earlier | rfl, reached, rfl⟩
      · exact ⟨d, earlier, reached, rfl⟩
      · exact absurd reached apart
    · rintro ⟨d, earlier, reached, rfl⟩
      exact ⟨d, .inl earlier, reached, rfl⟩
  refine ⟨?_, ?_, tells.orderedAuthors, fun author => ?_, sameDates ▸ tells.firstSeen,
    sameDates ▸ tells.lastSeen, tells.orderedTogether, fun other => ?_⟩
  · simp [tells.commits, commitCount, apart]
  · simp [tells.fixes, fixCount, apart]
  · simp only [tells.authors, List.mem_append, List.mem_singleton]
    constructor
    · rintro ⟨d, earlier, reached, rfl⟩
      exact ⟨d, .inl earlier, reached, rfl⟩
    · rintro ⟨d, earlier | rfl, reached, rfl⟩
      · exact ⟨d, earlier, reached, rfl⟩
      · exact absurd reached apart
  · have counted : pairCount g index limit (commits ++ [c]) id other
        = pairCount g index limit commits id other := by
      simp [pairCount, apart]
    rw [counted, tells.together]

/-! ## All commits -/

def gather (g : CallGraph) (index : PathIndex) (limit : Nat) (commits : List Commit) :
    ActivityLog :=
  commits.foldl (add g index limit) {}

theorem gather_append (commits : List Commit) (c : Commit) :
    gather g index limit (commits ++ [c]) = add g index limit (gather g index limit commits) c := by
  rw [gather, List.foldl_append]
  rfl

theorem ordered_gather (g : CallGraph) (index : PathIndex) (limit : Nat) (commits : List Commit) :
    (gather g index limit commits).activities.Ordered := by
  induction commits using List.reverseRecOn with
  | nil => exact Table.ordered_nil
  | append_singleton commits c ih =>
    rw [gather_append]
    exact ordered_add ih c

theorem tells_gather (g : CallGraph) (index : PathIndex) (limit : Nat) (commits : List Commit)
    (id : String) :
    Tells g index limit commits id
      (((gather g index limit commits).activities.find? id).getD {}) := by
  induction commits using List.reverseRecOn with
  | nil => exact tells_nil g index limit id
  | append_singleton commits c ih =>
    rw [gather_append, find?_add (ordered_gather g index limit commits)]
    by_cases touches : id ∈ reach g index c
    · rw [if_pos touches]
      exact ih.advance touches
    · rw [if_neg touches]
      exact ih.skip touches

theorem exists_find?_gather (g : CallGraph) (index : PathIndex) (limit : Nat)
    (commits : List Commit) (id : String) :
    (∃ a, (gather g index limit commits).activities.find? id = some a) ↔
      ∃ c ∈ commits, id ∈ reach g index c := by
  induction commits using List.reverseRecOn with
  | nil => simp [gather]
  | append_singleton commits c ih =>
    rw [gather_append, find?_add (ordered_gather g index limit commits)]
    by_cases touches : id ∈ reach g index c
    · simp [touches]
    · rw [if_neg touches, ih]
      simp [or_and_right, exists_or, touches]

theorem summary_gather (g : CallGraph) (index : PathIndex) (limit : Nat) (commits : List Commit) :
    (gather g index limit commits).summary =
      { commits := commits.length
        fixes := commits.countP Commit.isFix
        broad := commits.countP fun c => limit < (reach g index c).card
        routinesTouched := 0 } := by
  induction commits using List.reverseRecOn with
  | nil => rfl
  | append_singleton commits c ih =>
    rw [gather_append, add, ih, length_touched]
    by_cases broad : limit < (reach g index c).card <;> cases fix : c.isFix <;>
      simp [broad, fix]

theorem correlate_eq (g : CallGraph) (index : PathIndex) (commits : List Commit) (limit : Nat) :
    correlate g index commits limit =
      { activities := (gather g index limit commits).activities
        summary :=
          { (gather g index limit commits).summary with
            routinesTouched := (gather g index limit commits).activities.length } } := rfl

/-- An entry of the log tells the counts, and some commit touches its routine. -/
theorem tells_of_find? (found : (gather g index limit commits).activities.find? id = some a) :
    Tells g index limit commits id a ∧ a.commits ≠ 0 := by
  have tells := tells_gather g index limit commits id
  obtain ⟨c, member, reached⟩ := (exists_find?_gather g index limit commits id).1 ⟨a, found⟩
  rw [found, Option.getD_some] at tells
  refine ⟨tells, ?_⟩
  rw [tells.commits, commitCount]
  exact Nat.pos_iff_ne_zero.1 (List.countP_pos_iff.2 ⟨c, member, decide_eq_true reached⟩)

/-! ## Pairs and order -/

def sharedCommits (log : ActivityLog) (id other : String) : Nat :=
  ((log.activity? id).bind fun a => a.together.find? other).getD 0

def ownCommits (log : ActivityLog) (id : String) : Nat :=
  ((log.activity? id).map Activity.commits).getD 0

theorem ownCommits_correlate (g : CallGraph) (index : PathIndex) (commits : List Commit)
    (limit : Nat) (id : String) :
    ownCommits (correlate g index commits limit) id = commitCount g index commits id := by
  have tells := tells_gather g index limit commits id
  rw [← tells.commits]
  change (((gather g index limit commits).activities.find? id).map Activity.commits).getD 0 = _
  cases (gather g index limit commits).activities.find? id <;> rfl

theorem sharedCommits_correlate (g : CallGraph) (index : PathIndex) (commits : List Commit)
    (limit : Nat) (id other : String) :
    sharedCommits (correlate g index commits limit) id other
      = if other = id then 0 else pairCount g index limit commits id other := by
  have tells := (tells_gather g index limit commits id).together other
  have lookup : sharedCommits (correlate g index commits limit) id other
      = ((((gather g index limit commits).activities.find? id).getD {}).together.find?
          other).getD 0 := by
    change (((gather g index limit commits).activities.find? id).bind
      fun a => a.together.find? other).getD 0 = _
    cases (gather g index limit commits).activities.find? id <;> rfl
  rw [lookup, tells]
  by_cases self : other = id
  · simp [self]
  · by_cases some : 0 < pairCount g index limit commits id other
    · simp [self, some]
    · simp [self, Nat.eq_zero_of_not_pos some]

theorem pairCount_comm (g : CallGraph) (index : PathIndex) (limit : Nat) (commits : List Commit)
    (id other : String) :
    pairCount g index limit commits id other = pairCount g index limit commits other id := by
  refine List.countP_congr fun c _ => ?_
  simp only [decide_eq_true_eq]
  exact and_left_comm

theorem pairCount_le (g : CallGraph) (index : PathIndex) (limit : Nat) (commits : List Commit)
    (id other : String) :
    pairCount g index limit commits id other ≤ commitCount g index commits id := by
  refine List.countP_mono_left fun c _ both => ?_
  simp only [decide_eq_true_eq] at both ⊢
  exact both.1

theorem Tells.perm (tells : Tells g index limit commits id a) {others : List Commit}
    (shuffled : commits.Perm others) : Tells g index limit others id a := by
  have sameDates : dates g index commits id = dates g index others id := by
    ext date
    simp only [dates, shuffled.mem_iff]
  refine ⟨tells.commits.trans (shuffled.countP_eq _), tells.fixes.trans (shuffled.countP_eq _),
    tells.orderedAuthors, fun author => ?_, sameDates ▸ tells.firstSeen,
    sameDates ▸ tells.lastSeen, tells.orderedTogether, fun other => ?_⟩
  · rw [tells.authors]
    simp only [shuffled.mem_iff]
  · have counted : pairCount g index limit commits id other
        = pairCount g index limit others id other := shuffled.countP_eq _
    rw [tells.together, counted]

/-- The counts determine the activity. -/
theorem Tells.unique {b : Activity} (left : Tells g index limit commits id a)
    (right : Tells g index limit commits id b) (some : a.commits ≠ 0) : a = b := by
  have commitsEq : a.commits = b.commits := left.commits.trans right.commits.symm
  have fixesEq : a.fixes = b.fixes := left.fixes.trans right.fixes.symm
  have authorsEq : a.authors = b.authors :=
    left.orderedAuthors.ext right.orderedAuthors fun author => by rw [left.authors, right.authors]
  have firstEq : a.firstSeen = b.firstSeen :=
    (left.firstSeen some).unique (right.firstSeen (commitsEq ▸ some))
  have lastEq : a.lastSeen = b.lastSeen :=
    (left.lastSeen some).unique (right.lastSeen (commitsEq ▸ some))
  have togetherEq : a.together = b.together :=
    left.orderedTogether.ext right.orderedTogether fun other => by
      rw [left.together, right.together]
  cases a
  cases b
  simp_all

theorem gather_perm (g : CallGraph) (index : PathIndex) (limit : Nat) {others : List Commit}
    (shuffled : commits.Perm others) :
    gather g index limit commits = gather g index limit others := by
  have activities : (gather g index limit commits).activities
      = (gather g index limit others).activities := by
    refine (ordered_gather g index limit commits).ext (ordered_gather g index limit others)
      fun id => ?_
    have present : (∃ a, (gather g index limit commits).activities.find? id = some a) ↔
        ∃ a, (gather g index limit others).activities.find? id = some a := by
      rw [exists_find?_gather, exists_find?_gather]
      simp only [shuffled.mem_iff]
    cases left : (gather g index limit commits).activities.find? id with
    | none =>
      cases right : (gather g index limit others).activities.find? id with
      | none => rfl
      | some b => simp [left, right] at present
    | some a =>
      -- Both entries tell the same counts, and the counts determine an entry.
      obtain ⟨b, right⟩ := present.1 ⟨a, left⟩
      have tellsLeft := tells_of_find? left
      have tellsRight := tells_of_find? right
      rw [right, (tellsLeft.1.perm shuffled).unique tellsRight.1 tellsLeft.2]
  have summary : (gather g index limit commits).summary
      = (gather g index limit others).summary := by
    rw [summary_gather, summary_gather, shuffled.length_eq, shuffled.countP_eq, shuffled.countP_eq]
  cases left : gather g index limit commits
  cases right : gather g index limit others
  simp_all

/-- The activity log is what its counting description says, pair counts are symmetric and bounded by
    the commits of either routine, and the order of the commits does not matter. -/
theorem correlate_counts (g : CallGraph) (index : PathIndex) (commits : List Commit) (limit : Nat) :
    let log := correlate g index commits limit
    (∀ id, (∃ a, log.activity? id = some a) ↔ ∃ c ∈ commits, id ∈ reach g index c) ∧
    (∀ id a, log.activity? id = some a →
      a.commits = commits.countP (fun c => id ∈ reach g index c) ∧
      a.fixes = commits.countP (fun c => id ∈ reach g index c ∧ c.isFix = true) ∧
      (a.authors.Nodup ∧
        ∀ author, author ∈ a.authors ↔ ∃ c ∈ commits, id ∈ reach g index c ∧ c.author = author) ∧
      IsLeast {date | ∃ c ∈ commits, id ∈ reach g index c ∧ c.date = date} a.firstSeen ∧
      IsGreatest {date | ∃ c ∈ commits, id ∈ reach g index c ∧ c.date = date} a.lastSeen ∧
      ∀ other, a.together.find? other =
        if other ≠ id ∧ 0 < pairCount g index limit commits id other
        then some (pairCount g index limit commits id other) else none) ∧
    (log.summary.commits = commits.length ∧ log.summary.fixes = commits.countP Commit.isFix ∧
      log.summary.broad = commits.countP (fun c => limit < (reach g index c).card)) ∧
    (∀ id other, log.sharedCommits id other = log.sharedCommits other id) ∧
    (∀ id other, log.sharedCommits id other ≤ min (log.ownCommits id) (log.ownCommits other)) ∧
    ∀ others, commits.Perm others → correlate g index others limit = log := by
  intro log
  refine ⟨exists_find?_gather g index limit commits, fun id a found => ?_, ?_, fun id other => ?_,
    fun id other => ?_, fun others shuffled => ?_⟩
  · have stored : (gather g index limit commits).activities.find? id = some a := found
    obtain ⟨tells, some⟩ := tells_of_find? stored
    exact ⟨tells.commits, tells.fixes, ⟨tells.orderedAuthors.nodup, tells.authors⟩,
      tells.firstSeen some, tells.lastSeen some, tells.together⟩
  · rw [show log = _ from correlate_eq g index commits limit, summary_gather]
    exact ⟨rfl, rfl, rfl⟩
  · rw [sharedCommits_correlate, sharedCommits_correlate, pairCount_comm]
    by_cases self : other = id
    · rw [if_pos self, if_pos self.symm]
    · rw [if_neg self, if_neg (Ne.symm self)]
  · rw [sharedCommits_correlate, ownCommits_correlate, ownCommits_correlate]
    split
    · exact Nat.zero_le _
    · refine le_min (pairCount_le ..) ?_
      rw [pairCount_comm]
      exact pairCount_le ..
  · rw [show log = _ from correlate_eq g index commits limit, correlate_eq,
      gather_perm g index limit shuffled]

end LoadBearing.ActivityLog
