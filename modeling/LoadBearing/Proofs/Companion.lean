import LoadBearing.Proofs.Codependence

/-! # The companion of a routine is a true maximum

The scan for a companion keeps its leader unless the next candidate is closer, so whoever stands
before the chosen candidate is less close than it, and whoever stands behind is not closer.
Candidates are listed by identity, and the chosen one is therefore the first of the closest.

The scan compares doubles.  Below `2 ^ 26` commits for each routine these are in the order of the
fractions they stand for, equal ones included, so the maximum is one of the exact shares.
-/

namespace LoadBearing.ActivityLog

/-! ## The first of the closest -/

section First

variable {α β : Type} [LT α] [DecidableLT α] [LinearOrder β] {rank : α → β}

theorem exists_before_foldl_closer {candidates : List (Companion α)} {best : Companion α}
    (faithful : ∀ c ∈ candidates, ∀ d ∈ candidates, c.correlation < d.correlation ↔
      rank c.correlation < rank d.correlation)
    (chosen : candidates.foldl closer none = some best) :
    ∃ before after, candidates = before ++ best :: after ∧
      ∀ c ∈ before, rank c.correlation < rank best.correlation := by
  induction candidates using List.reverseRecOn with
  | nil => cases chosen
  | append_singleton seen candidate ih =>
    have earlier : ∀ c ∈ seen, ∀ d ∈ seen, c.correlation < d.correlation ↔
        rank c.correlation < rank d.correlation := fun c inSeen d alsoSeen =>
      faithful c (List.mem_append_left _ inSeen) d (List.mem_append_left _ alsoSeen)
    have leads := leads_foldl earlier
    rw [List.foldl_append, List.foldl_cons, List.foldl_nil] at chosen
    cases running : seen.foldl closer none with
    | none =>
      rw [running] at chosen leads
      obtain rfl := Option.some.inj chosen
      have nothing : seen = [] := leads
      exact ⟨[], [], by rw [nothing], fun _ member => (nomatch member)⟩
    | some leader =>
      rw [running] at chosen leads
      obtain ⟨member, highest⟩ := leads
      rw [closer] at chosen
      by_cases overtaken : leader.correlation < candidate.correlation
      · -- All that came before is at most as close as the leader that is overtaken.
        rw [if_pos overtaken] at chosen
        obtain rfl := Option.some.inj chosen
        have above :=
          (faithful leader (List.mem_append_left _ member) candidate (by simp)).1 overtaken
        exact ⟨seen, [], rfl, fun c inSeen => (highest c inSeen).trans_lt above⟩
      · rw [if_neg overtaken] at chosen
        obtain rfl := Option.some.inj chosen
        obtain ⟨before, after, split, less⟩ := ih earlier running
        exact ⟨before, after ++ [candidate], by rw [split]; simp, less⟩

end First

section Strongest

variable {g : CallGraph} {index : PathIndex} {limit : Nat} {commits : List Commit} {least : Nat}
  {id other : String} {α : Type}

theorem pairwise_candidatesBy (share : Nat → Nat → α) (g : CallGraph) (index : PathIndex)
    (limit : Nat) (commits : List Commit) (id : String) (least : Nat) :
    ((correlate g index commits limit).candidatesBy share id least).Pairwise
      fun one other => one.id < other.id := by
  rw [candidatesBy]
  split
  next => exact List.Pairwise.nil
  next a found =>
    obtain ⟨tells, -⟩ := tells_of_find? found
    have ordered := tells.orderedTogether
    rw [Table.Ordered, Table.keys, List.pairwise_map] at ordered
    rw [List.pairwise_map]
    exact ordered.filter _

/-! ## Small counts -/

section Small

variable {bound part whole : Nat}

theorem Pairs.proper_of_small (pairs : Pairs g index limit commits least id other)
    (small : ∀ id, commitCount g index commits id < 2 ^ 26) :
    Proper (2 ^ 26 - 1) (pairCount g index limit commits id other)
      (lesserCount g index commits id other) := by
  have below : lesserCount g index commits id other < 2 ^ 26 :=
    (min_le_left _ _).trans_lt (small id)
  exact ⟨pairs.2.1, pairCount_le_lesserCount .., Nat.le_pred_of_lt below⟩

theorem Proper.fraction_pos (proper : Proper bound part whole) : 0 < fraction part whole := by
  have some := proper.some
  have wholePositive := some.trans_le proper.within
  rw [fraction]
  positivity

theorem Proper.fraction_le_one (proper : Proper bound part whole) : fraction part whole ≤ 1 :=
  div_le_one_of_le₀ (by exact_mod_cast proper.within) (Nat.cast_nonneg _)

/-- Rounding does not take a share out of its range. -/
theorem Proper.ratio_bounds (proper : Proper bound part whole) (small : bound < 2 ^ 26) :
    0 < ratio part whole ∧ ratio part whole ≤ 1 := by
  have fits : bound < 2 ^ 64 := small.trans (by decide)
  have reads := proper.reads fits
  have unit : Proper bound 1 1 :=
    ⟨one_pos, le_rfl, (proper.some.trans_le proper.within).trans_le proper.bounded⟩
  have one : ratio 1 1 = 1 := by decide +kernel
  refine ⟨reads.zero_lt, ?_⟩
  rw [← one, reads.le_iff (unit.reads fits), ← not_lt, unit.value_lt_iff proper small, not_lt]
  exact proper.fraction_le_one.trans_eq (by norm_num [fraction])

theorem Proper.value_near (proper : Proper bound part whole) (small : bound < 2 ^ 53) :
    |Double.value (ratio part whole) - fraction part whole| ≤ fraction part whole / 2 ^ 53 := by
  have below := proper.bounded.trans_lt small
  obtain ⟨v, reads, near⟩ := Double.reads_ratio proper.some proper.within (below.trans (by decide))
  rw [reads.value_eq]
  exact near below

end Small

/-! ## The strongest companion -/

/-- The common commits of two routines as a share of the commits of the less active one, exactly. -/
def exactShare (g : CallGraph) (index : PathIndex) (limit : Nat) (commits : List Commit)
    (id other : String) : ℚ :=
  fraction (pairCount g index limit commits id other) (lesserCount g index commits id other)

theorem exactShare_eq_zero (none : ¬ 0 < pairCount g index limit commits id other) :
    exactShare g index limit commits id other = 0 := by
  rw [exactShare, Nat.eq_zero_of_not_pos none, fraction, Nat.cast_zero, zero_div]

/-- The other routine has enough common commits, none with enough of them has a greater share, and
    it comes first of those with the same share. -/
structure Strongest (g : CallGraph) (index : PathIndex) (limit : Nat) (commits : List Commit)
    (least : Nat) (id other : String) : Prop where
  pairs : Pairs g index limit commits least id other
  highest : ∀ rival ≠ id, least ≤ pairCount g index limit commits id rival →
    exactShare g index limit commits id rival ≤ exactShare g index limit commits id other
  first : ∀ rival ≠ id, least ≤ pairCount g index limit commits id rival →
    exactShare g index limit commits id rival = exactShare g index limit commits id other →
    other ≤ rival

theorem faithful_candidates (small : ∀ id, commitCount g index commits id < 2 ^ 26) (limit : Nat)
    (id : String) (least : Nat) :
    ∀ c ∈ (correlate g index commits limit).candidatesBy ratio id least,
    ∀ d ∈ (correlate g index commits limit).candidatesBy ratio id least,
      c.correlation < d.correlation ↔ Double.value c.correlation < Double.value d.correlation := by
  intro c inList d alsoInList
  obtain ⟨_, pairs, rfl⟩ := mem_candidatesBy.1 inList
  obtain ⟨_, others, rfl⟩ := mem_candidatesBy.1 alsoInList
  exact ((pairs.proper_of_small small).reads (by decide)).lt_iff
    ((others.proper_of_small small).reads (by decide))

theorem strongest_of_companion? (small : ∀ id, commitCount g index commits id < 2 ^ 26)
    {c : Companion Float}
    (chosen : (correlate g index commits limit).companion? id least = some c) :
    ∃ other, Strongest g index limit commits least id other ∧
      candidate ratio g index limit commits id other = c := by
  have faithful := faithful_candidates small limit id least
  have leads := leads_foldl faithful
  obtain ⟨before, after, listed, less⟩ := exists_before_foldl_closer faithful chosen
  have inOrder := pairwise_candidatesBy ratio g index limit commits id least
  rw [show List.foldl closer none _ = _ from chosen] at leads
  obtain ⟨member, highest⟩ := leads
  obtain ⟨other, pairs, rfl⟩ := mem_candidatesBy.1 member
  have proper := pairs.proper_of_small small
  refine ⟨other, ⟨pairs, fun rival different enough => ?_, fun rival different enough same => ?_⟩,
    rfl⟩
  · by_cases some : 0 < pairCount g index limit commits id rival
    · have rivals : Pairs g index limit commits least id rival := ⟨different, some, enough⟩
      have below := highest _ (mem_candidatesBy.2 ⟨rival, rivals, rfl⟩)
      rw [← not_lt] at below ⊢
      exact mt (proper.value_lt_iff (rivals.proper_of_small small) (by decide)).2 below
    · rw [exactShare_eq_zero some]
      exact proper.fraction_pos.le
  · -- A rival with the same share is a candidate too, and it does not stand before the chosen one.
    have some : 0 < pairCount g index limit commits id rival := by
      by_contra none
      rw [exactShare_eq_zero none] at same
      exact proper.fraction_pos.ne same
    have rivals : Pairs g index limit commits least id rival := ⟨different, some, enough⟩
    have inList : candidate ratio g index limit commits id rival
        ∈ (correlate g index commits limit).candidatesBy ratio id least :=
      mem_candidatesBy.2 ⟨rival, rivals, rfl⟩
    rw [listed] at inList inOrder
    rcases List.mem_append.1 inList with earlier | later
    · have lower : Double.value (candidate ratio g index limit commits id rival).correlation
          < Double.value (candidate ratio g index limit commits id other).correlation :=
        less _ earlier
      rw [candidate, candidate,
        (rivals.proper_of_small small).value_lt_iff proper (by decide)] at lower
      exact absurd same lower.ne
    · rcases List.mem_cons.1 later with itself | behind
      · exact (congrArg Companion.id itself).ge
      · obtain ⟨-, tail, -⟩ := List.pairwise_append.1 inOrder
        exact (List.rel_of_pairwise_cons tail behind).le

theorem companion?_eq_none_iff (small : ∀ id, commitCount g index commits id < 2 ^ 26) :
    (correlate g index commits limit).companion? id least = none ↔
      ∀ other ≠ id, pairCount g index limit commits id other < max least 1 := by
  have leads := leads_foldl (faithful_candidates small limit id least)
  have empty : (correlate g index commits limit).companion? id least = none ↔
      (correlate g index commits limit).candidatesBy ratio id least = [] := by
    constructor
    · intro nothing
      rw [show List.foldl closer none _ = _ from nothing] at leads
      exact leads
    · intro nothing
      rw [companion?, companionBy?, nothing]
      rfl
  rw [empty, List.eq_nil_iff_forall_not_mem]
  simp only [mem_candidatesBy, not_exists, not_and]
  constructor
  · intro alone other different
    by_contra enough
    exact alone _ other ⟨different, by omega, by omega⟩ rfl
  · rintro few c other ⟨different, some, enough⟩ -
    have := few other different
    omega

/-- Below `2 ^ 26` commits for each routine, the companion of a routine is a true maximum.  There is
    none exactly if no other routine shares enough commits with it.  Else it is the first of those
    with the greatest share, among all that share enough.  The share is a proper fraction, and it is
    given as a double next to it. -/
theorem companion?_is_strongest (g : CallGraph) (index : PathIndex) (commits : List Commit)
    (limit : Nat) (small : ∀ id, commitCount g index commits id < 2 ^ 26) (id : String)
    (least : Nat) :
    let log := correlate g index commits limit
    (log.companion? id least = none ↔
      ∀ other ≠ id, pairCount g index limit commits id other < max least 1) ∧
    ∀ c, log.companion? id least = some c →
      Strongest g index limit commits least id c.id ∧
      c.together = pairCount g index limit commits id c.id ∧
      c.correlation = ratio c.together (lesserCount g index commits id c.id) ∧
      (0 < exactShare g index limit commits id c.id ∧
        exactShare g index limit commits id c.id ≤ 1) ∧
      (0 < c.correlation ∧ c.correlation ≤ 1) ∧
      |Double.value c.correlation - exactShare g index limit commits id c.id|
        ≤ exactShare g index limit commits id c.id / 2 ^ 53 := by
  intro log
  refine ⟨companion?_eq_none_iff small, fun c chosen => ?_⟩
  obtain ⟨other, strongest, rfl⟩ := strongest_of_companion? small chosen
  have proper := strongest.pairs.proper_of_small small
  exact ⟨strongest, rfl, rfl, ⟨proper.fraction_pos, proper.fraction_le_one⟩,
    proper.ratio_bounds (by decide), proper.value_near (by decide)⟩

end Strongest

namespace Tied

def graph : CallGraph :=
  .ofParts [Chain.routine "left" 1, Chain.routine "mid" 3, Chain.routine "right" 5] []

def index : PathIndex := ⟨[("a.js", "a.js")]⟩

/-- One of the two commits of `left` touches `mid`, and so do two of the four of `right`. -/
def commits : List Commit :=
  [(2, 3), (1, 1), (4, 5), (4, 5), (6, 6), (6, 6), (3, 3)].map fun range =>
    Chain.commit range.1 range.2

theorem companion_of_mid :
    ((correlate graph index commits 10).companion? "mid" 1).map Companion.id = some "left" := by
  decide +kernel

theorem shares_of_mid :
    exactShare graph index 10 commits "mid" "left" = 1 / 2 ∧
      exactShare graph index 10 commits "mid" "right" = 1 / 2 := by
  have left : pairCount graph index 10 commits "mid" "left" = 1 ∧
      lesserCount graph index commits "mid" "left" = 2 := by decide +kernel
  have right : pairCount graph index 10 commits "mid" "right" = 2 ∧
      lesserCount graph index commits "mid" "right" = 4 := by decide +kernel
  rw [exactShare, exactShare, left.1, left.2, right.1, right.2]
  norm_num [fraction]

end Tied

/-- Of two candidates with the same share, of one commit in two and of two in four, the first. -/
theorem companion?_is_strongest_tied :
    (∀ id, commitCount Tied.graph Tied.index Tied.commits id < 2 ^ 26) ∧
    exactShare Tied.graph Tied.index 10 Tied.commits "mid" "right"
      = exactShare Tied.graph Tied.index 10 Tied.commits "mid" "left" ∧
    ∃ c, (correlate Tied.graph Tied.index Tied.commits 10).companion? "mid" 1 = some c ∧
      c.id = "left" ∧ Strongest Tied.graph Tied.index 10 Tied.commits 1 "mid" c.id := by
  have small : ∀ id, commitCount Tied.graph Tied.index Tied.commits id < 2 ^ 26 := fun _ =>
    List.countP_le_length.trans_lt (by decide)
  obtain ⟨c, chosen, left⟩ := Option.map_eq_some_iff.1 Tied.companion_of_mid
  obtain ⟨-, strongest⟩ :=
    companion?_is_strongest Tied.graph Tied.index Tied.commits 10 small "mid" 1
  exact ⟨small, Tied.shares_of_mid.2.trans Tied.shares_of_mid.1.symm, c, chosen, left,
    (strongest c chosen).1⟩

end LoadBearing.ActivityLog
