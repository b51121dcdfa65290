import LoadBearing.Archetype.Past
import LoadBearing.Proofs.Activity
import LoadBearing.Proofs.Rounding

/-! # Codependence is mutual

The common commits of two routines and the commits of the less active one are the same from either
side, so a routine is a candidate for whatever is a candidate for it, and equally close.  The scan for
the closest candidate finds a true maximum.  Hence the companion of a routine has a companion that is
at least as close.

None of this depends on how shares are written down, as long as their order is a linear one.  The
argument is therefore made once (`Faithful`) and used for exact fractions and for doubles.
-/

namespace LoadBearing

namespace ActivityLog

/-! ## The closest candidate -/

section Closest

variable {α β : Type} [LT α] [DecidableLT α] [LinearOrder β] {rank : α → β}

/-- The best of the candidates seen so far. -/
def Leads (rank : α → β) (seen : List (Companion α)) : Option (Companion α) → Prop
  | none => seen = []
  | some best => best ∈ seen ∧ ∀ c ∈ seen, rank c.correlation ≤ rank best.correlation

theorem Leads.closer {seen : List (Companion α)} {best : Option (Companion α)}
    (leads : Leads rank seen best) {candidate : Companion α}
    (faithful : ∀ c ∈ seen, c.correlation < candidate.correlation ↔
      rank c.correlation < rank candidate.correlation) :
    Leads rank (seen ++ [candidate]) (ActivityLog.closer best candidate) := by
  cases best with
  | none =>
    have nothing : seen = [] := leads
    simp [ActivityLog.closer, Leads, nothing]
  | some leader =>
    obtain ⟨member, highest⟩ := leads
    rw [ActivityLog.closer]
    by_cases overtaken : leader.correlation < candidate.correlation
    · have above := (faithful leader member).1 overtaken
      rw [if_pos overtaken]
      refine ⟨by simp, fun c inSeen => ?_⟩
      rcases List.mem_append.1 inSeen with earlier | last
      · exact (highest c earlier).trans above.le
      · rw [List.mem_singleton.1 last]
    · have below := not_lt.1 (mt (faithful leader member).2 overtaken)
      rw [if_neg overtaken]
      refine ⟨List.mem_append_left _ member, fun c inSeen => ?_⟩
      rcases List.mem_append.1 inSeen with earlier | last
      · exact highest c earlier
      · rw [List.mem_singleton.1 last]
        exact below

theorem leads_foldl {candidates : List (Companion α)}
    (faithful : ∀ c ∈ candidates, ∀ d ∈ candidates, c.correlation < d.correlation ↔
      rank c.correlation < rank d.correlation) :
    Leads rank candidates (candidates.foldl closer none) := by
  induction candidates using List.reverseRecOn with
  | nil => rfl
  | append_singleton seen candidate ih =>
    rw [List.foldl_append]
    have before := ih fun c inSeen d alsoSeen =>
      faithful c (List.mem_append_left _ inSeen) d (List.mem_append_left _ alsoSeen)
    exact before.closer fun c inSeen => faithful c (List.mem_append_left _ inSeen) candidate (by simp)

end Closest

/-! ## Candidates -/

section Candidates

variable {g : CallGraph} {index : PathIndex} {limit : Nat} {commits : List Commit} {least : Nat}
  {id other : String} {α : Type}

/-- Two routines with enough common commits. -/
def Pairs (g : CallGraph) (index : PathIndex) (limit : Nat) (commits : List Commit) (least : Nat)
    (id other : String) : Prop :=
  other ≠ id ∧ 0 < pairCount g index limit commits id other ∧
    least ≤ pairCount g index limit commits id other

theorem Pairs.symm (pairs : Pairs g index limit commits least id other) :
    Pairs g index limit commits least other id := by
  obtain ⟨different, some, enough⟩ := pairs
  rw [pairCount_comm] at some enough
  exact ⟨different.symm, some, enough⟩

def lesserCount (g : CallGraph) (index : PathIndex) (commits : List Commit) (id other : String) :
    Nat :=
  min (commitCount g index commits id) (commitCount g index commits other)

theorem lesserCount_comm (g : CallGraph) (index : PathIndex) (commits : List Commit)
    (id other : String) :
    lesserCount g index commits id other = lesserCount g index commits other id :=
  min_comm _ _

theorem pairCount_le_lesserCount (g : CallGraph) (index : PathIndex) (limit : Nat)
    (commits : List Commit) (id other : String) :
    pairCount g index limit commits id other ≤ lesserCount g index commits id other := by
  apply le_min
  · exact pairCount_le ..
  · rw [pairCount_comm]
    exact pairCount_le ..

theorem lesserCount_le_length (g : CallGraph) (index : PathIndex) (commits : List Commit)
    (id other : String) : lesserCount g index commits id other ≤ commits.length :=
  (min_le_left _ _).trans List.countP_le_length

/-- The correlation of two routines is the share of their common commits. -/
theorem correlationBy_correlate (share : Nat → Nat → α) (different : other ≠ id) :
    (correlate g index commits limit).correlationBy share id other
      = share (pairCount g index limit commits id other) (lesserCount g index commits id other) := by
  have tells := tells_gather g index limit commits id
  have tellsOther := tells_gather g index limit commits other
  have bound := pairCount_le_lesserCount g index limit commits id other
  have lookup : ∀ key, (correlate g index commits limit).activity? key
      = (gather g index limit commits).activities.find? key := fun _ => rfl
  rw [lesserCount, ← tells.commits, ← tellsOther.commits] at bound ⊢
  rw [correlationBy, lookup, lookup]
  cases one : (gather g index limit commits).activities.find? id with
  | none =>
    -- A routine that no commit touches shares no commit.
    simp only [one, Option.getD_none, Nat.zero_min, Nat.le_zero] at bound ⊢
    rw [bound]
  | some a =>
    cases two : (gather g index limit commits).activities.find? other with
    | none =>
      simp only [one, two, Option.getD_none, Nat.min_zero, Nat.le_zero] at bound ⊢
      rw [bound]
    | some b =>
      have together := tells.together other
      simp only [one, Option.getD_some] at together ⊢
      rw [together]
      by_cases some : 0 < pairCount g index limit commits id other
      · rw [if_pos ⟨different, some⟩, Option.getD_some]
      · rw [if_neg fun both => some both.2, Option.getD_none, Nat.eq_zero_of_not_pos some]

def candidate (share : Nat → Nat → α) (g : CallGraph) (index : PathIndex) (limit : Nat)
    (commits : List Commit) (id other : String) : Companion α where
  id := other
  correlation :=
    share (pairCount g index limit commits id other) (lesserCount g index commits id other)
  together := pairCount g index limit commits id other

theorem Pairs.touched (pairs : Pairs g index limit commits least id other) :
    ∃ c ∈ commits, id ∈ reach g index c := by
  obtain ⟨c, member, both⟩ := List.countP_pos_iff.1 pairs.2.1
  exact ⟨c, member, (of_decide_eq_true both).1⟩

theorem Pairs.mem_routines (pairs : Pairs g index limit commits least id other) :
    ∃ r ∈ g.routines, r.id = id := by
  obtain ⟨c, -, reached⟩ := pairs.touched
  obtain ⟨r, member, same, -⟩ := mem_reach.1 reached
  exact ⟨r, member, same⟩

theorem mem_candidatesBy {share : Nat → Nat → α} {c : Companion α} :
    c ∈ (correlate g index commits limit).candidatesBy share id least ↔
      ∃ other, Pairs g index limit commits least id other ∧
        candidate share g index limit commits id other = c := by
  constructor
  · intro member
    rw [candidatesBy] at member
    split at member
    next => cases member
    next a found =>
      obtain ⟨⟨other, count⟩, inFilter, rfl⟩ := List.mem_map.1 member
      obtain ⟨inTogether, enough⟩ := List.mem_filter.1 inFilter
      obtain ⟨tells, -⟩ := tells_of_find? found
      have stored := tells.orderedTogether.find?_of_mem inTogether
      rw [tells.together] at stored
      split at stored
      next both =>
        cases stored
        refine ⟨other, ⟨both.1, both.2, by simpa using enough⟩, ?_⟩
        rw [correlationBy_correlate share both.1]
        rfl
      next => cases stored
  · rintro ⟨other, pairs, rfl⟩
    obtain ⟨a, found⟩ := (exists_find?_gather g index limit commits id).2 pairs.touched
    obtain ⟨tells, -⟩ := tells_of_find? found
    have stored := tells.together other
    rw [if_pos ⟨pairs.1, pairs.2.1⟩] at stored
    have active : (correlate g index commits limit).activity? id = some a := found
    rw [candidatesBy, active]
    refine List.mem_map.2 ⟨(other, pairCount g index limit commits id other), ?_, ?_⟩
    · exact List.mem_filter.2 ⟨Table.mem_of_find? stored, by simpa using pairs.2.2⟩
    · rw [correlationBy_correlate share pairs.1]
      rfl

/-- The candidate that a routine is for another is as close as the other is for it. -/
theorem candidate_comm (share : Nat → Nat → α) (g : CallGraph) (index : PathIndex) (limit : Nat)
    (commits : List Commit) (id other : String) :
    (candidate share g index limit commits id other).correlation
      = (candidate share g index limit commits other id).correlation := by
  rw [candidate, candidate, pairCount_comm, lesserCount_comm]

/-! ## Reciprocity -/

variable {β : Type} [LT α] [DecidableLT α] [LinearOrder β]

/-- A proper share of at most so many. -/
structure Proper (bound part whole : Nat) : Prop where
  some : 0 < part
  within : part ≤ whole
  bounded : whole ≤ bound

/-- Proper shares and a floor are compared as a linear order compares their ranks. -/
structure Faithful (share : Nat → Nat → α) (floor : α) (rank : α → β) (bound : Nat) : Prop where
  shares : ∀ {part whole otherPart otherWhole}, Proper bound part whole →
    Proper bound otherPart otherWhole →
    (share part whole < share otherPart otherWhole ↔
      rank (share part whole) < rank (share otherPart otherWhole))
  floor : ∀ {part whole}, Proper bound part whole →
    (share part whole < floor ↔ rank (share part whole) < rank floor)

theorem Pairs.proper (pairs : Pairs g index limit commits least id other) :
    Proper commits.length (pairCount g index limit commits id other)
      (lesserCount g index commits id other) :=
  ⟨pairs.2.1, pairCount_le_lesserCount .., lesserCount_le_length ..⟩

variable {share : Nat → Nat → α} {floor : α} {rank : α → β} {c : Companion α}

theorem leads_companionBy? (g : CallGraph) (index : PathIndex) (limit : Nat)
    (faithful : Faithful share floor rank commits.length) (id : String) (least : Nat) :
    Leads rank ((correlate g index commits limit).candidatesBy share id least)
      ((correlate g index commits limit).companionBy? share id least) := by
  apply leads_foldl
  intro c inList d alsoInList
  obtain ⟨_, pairs, rfl⟩ := mem_candidatesBy.1 inList
  obtain ⟨_, others, rfl⟩ := mem_candidatesBy.1 alsoInList
  exact faithful.shares pairs.proper others.proper

/-- A routine with a candidate has a companion, and the companion is at least as close. -/
theorem Pairs.companion (pairs : Pairs g index limit commits least id other)
    (faithful : Faithful share floor rank commits.length) :
    ∃ back, Pairs g index limit commits least id back ∧
      (correlate g index commits limit).companionBy? share id least
        = some (candidate share g index limit commits id back) ∧
      rank (candidate share g index limit commits id other).correlation
        ≤ rank (candidate share g index limit commits id back).correlation := by
  have leads := leads_companionBy? g index limit faithful id least
  have listed : candidate share g index limit commits id other
      ∈ (correlate g index commits limit).candidatesBy share id least :=
    mem_candidatesBy.2 ⟨other, pairs, rfl⟩
  cases chosen : (correlate g index commits limit).companionBy? share id least with
  | none =>
    rw [chosen] at leads
    have nothing : (correlate g index commits limit).candidatesBy share id least = [] := leads
    rw [nothing] at listed
    cases listed
  | some c =>
    rw [chosen] at leads
    obtain ⟨member, highest⟩ := leads
    obtain ⟨back, pairsBack, rfl⟩ := mem_candidatesBy.1 member
    exact ⟨back, pairsBack, rfl, highest _ listed⟩

theorem inseparable?_eq_some_iff {log : ActivityLog} :
    log.inseparable? share floor id least = some c ↔
      log.companionBy? share id least = some c ∧ ¬ c.correlation < floor := by
  rw [inseparable?, Option.filter_eq_some_iff, decide_eq_true_iff]

/-- An inseparable companion has an inseparable companion itself, which is at least as close. -/
theorem inseparable?_reciprocated (faithful : Faithful share floor rank commits.length)
    (found : (correlate g index commits limit).inseparable? share floor id least = some c) :
    ∃ other, Pairs g index limit commits least id other ∧
      candidate share g index limit commits id other = c ∧
      ∃ back, Pairs g index limit commits least other back ∧
        (correlate g index commits limit).inseparable? share floor other least
          = some (candidate share g index limit commits other back) ∧
        rank c.correlation ≤ rank (candidate share g index limit commits other back).correlation := by
  obtain ⟨chosen, near⟩ := inseparable?_eq_some_iff.1 found
  have leads := leads_companionBy? g index limit faithful id least
  rw [chosen] at leads
  obtain ⟨other, pairs, rfl⟩ := mem_candidatesBy.1 leads.1
  obtain ⟨back, pairsBack, answer, closer⟩ := pairs.symm.companion faithful
  -- The routine is a candidate for its companion and as close to it as the companion is.
  rw [candidate_comm] at closer
  refine ⟨other, pairs, rfl, back, pairsBack, inseparable?_eq_some_iff.2 ⟨answer, ?_⟩, closer⟩
  rw [candidate, faithful.floor pairsBack.proper, not_lt]
  rw [candidate, faithful.floor pairs.proper, not_lt] at near
  exact near.trans closer

end Candidates

/-! ## Exact shares and doubles -/

def fraction (part whole : Nat) : ℚ :=
  part / whole

theorem faithful_fraction (floor : ℚ) (bound : Nat) : Faithful fraction floor id bound :=
  ⟨fun _ _ => Iff.rfl, fun _ => Iff.rfl⟩

section Doubles

variable {bound part whole otherPart otherWhole : Nat}

theorem Proper.reads (proper : Proper bound part whole) (fits : bound < 2 ^ 64) :
    Double.Reads (ratio part whole) (Double.value (ratio part whole)) := by
  obtain ⟨v, reads, -⟩ :=
    Double.reads_ratio proper.some proper.within (proper.bounded.trans_lt fits)
  rw [reads.value_eq]
  exact reads

theorem faithful_ratio (fits : bound < 2 ^ 64) :
    Faithful ratio Detector.codependentFloor Double.value bound := by
  have half : Double.Reads Detector.codependentFloor (1 / 2) := by
    refine ⟨2 ^ 52, -53, ⟨⟨by decide, rfl⟩, le_rfl, by decide⟩, ?_⟩
    norm_num
  constructor
  · intro part whole otherPart otherWhole proper otherProper
    exact (proper.reads fits).lt_iff (otherProper.reads fits)
  · intro part whole proper
    rw [half.value_eq]
    exact (proper.reads fits).lt_iff half

/-- Doubles of small counts are in the order of the fractions. -/
theorem Proper.value_lt_iff (proper : Proper bound part whole)
    (otherProper : Proper bound otherPart otherWhole) (small : bound < 2 ^ 26) :
    Double.value (ratio part whole) < Double.value (ratio otherPart otherWhole) ↔
      fraction part whole < fraction otherPart otherWhole := by
  have fits : bound < 2 ^ 64 := small.trans (by decide)
  rw [← (proper.reads fits).lt_iff (otherProper.reads fits)]
  exact Double.ratio_lt_iff proper.some proper.within (proper.bounded.trans_lt small)
    otherProper.some otherProper.within (otherProper.bounded.trans_lt small)

theorem fraction_le_of_value_le (proper : Proper bound part whole)
    (otherProper : Proper bound otherPart otherWhole) (small : bound < 2 ^ 26)
    (values : Double.value (ratio part whole) ≤ Double.value (ratio otherPart otherWhole)) :
    fraction part whole ≤ fraction otherPart otherWhole :=
  not_lt.1 (mt (otherProper.value_lt_iff proper small).2 (not_lt.2 values))

end Doubles

end ActivityLog

/-! ## The detector -/

/-- The detector reports the inseparable companion. -/
theorem Detector.codependent_detail_iff {e : Evidence} {log : ActivityLog} (known : e.log = some log)
    {r : Routine} {partner : String} {x : Float} {n : Nat} :
    (∃ found, codependent e r = some found ∧ found.detail = .codependent partner x n) ↔
      log.inseparable? ratio codependentFloor r.id e.minTogether = some ⟨partner, x, n⟩ := by
  cases found : log.inseparable? ratio codependentFloor r.id e.minTogether with
  | none => simp [codependent, known, found]
  | some c =>
    obtain ⟨id, correlation, together⟩ := c
    simp [codependent, known, found, Detection.detailed]

open ActivityLog in
/-- Codependence is mutual: whatever a routine is codependent with is a routine of the graph and is
    codependent itself, with a correlation that is at least as high.  This holds for correlations as
    exact fractions and for the doubles that the detector reports, whose order is that of the
    fractions as long as there are fewer than `2 ^ 26` commits. -/
theorem codependence_is_mutual (g : CallGraph) (index : PathIndex) (commits : List Commit)
    (limit least : Nat) (profile : Profile) (bridges : Table Bridge) :
    let log := correlate g index commits limit
    let e : Evidence := ⟨g, profile, some log, bridges, least⟩
    (∀ id c, log.inseparable? fraction (1 / 2) id least = some c →
      (∃ r ∈ g.routines, r.id = c.id) ∧
      c.correlation = fraction (log.sharedCommits id c.id)
        (min (log.ownCommits id) (log.ownCommits c.id)) ∧
      ∃ back, log.inseparable? fraction (1 / 2) c.id least = some back ∧
        c.correlation ≤ back.correlation) ∧
    (commits.length < 2 ^ 64 → ∀ r found partner x n, Detector.codependent e r = some found →
      found.detail = .codependent partner x n →
      (∃ s ∈ g.routines, s.id = partner) ∧
      ∀ s : Routine, s.id = partner → ∃ answer other y k, Detector.codependent e s = some answer ∧
        answer.detail = .codependent other y k ∧ x ≤ y ∧
        (commits.length < 2 ^ 26 →
          log.correlationBy fraction r.id partner ≤ log.correlationBy fraction partner other)) := by
  intro log e
  constructor
  · intro id c found
    obtain ⟨other, pairs, rfl, back, -, answer, closer⟩ :=
      inseparable?_reciprocated (faithful_fraction _ _) found
    refine ⟨pairs.symm.mem_routines, ?_, _, answer, closer⟩
    show _ = fraction ((correlate g index commits limit).sharedCommits id other) (min
      ((correlate g index commits limit).ownCommits id)
      ((correlate g index commits limit).ownCommits other))
    rw [sharedCommits_correlate, if_neg pairs.1, ownCommits_correlate, ownCommits_correlate]
    rfl
  · intro fits r found partner x n detected detail
    have companion : log.inseparable? ratio Detector.codependentFloor r.id least
        = some ⟨partner, x, n⟩ :=
      (Detector.codependent_detail_iff (e := e) rfl).1 ⟨found, detected, detail⟩
    obtain ⟨other, pairs, same, back, pairsBack, answer, closer⟩ :=
      inseparable?_reciprocated (faithful_ratio fits) companion
    cases same
    refine ⟨pairs.symm.mem_routines, fun s named => ?_⟩
    subst named
    obtain ⟨reply, answered, partnered⟩ := (Detector.codependent_detail_iff (e := e) rfl).2 answer
    refine ⟨reply, back, _, _, answered, partnered, ?_, fun small => ?_⟩
    · exact ((pairs.proper.reads fits).le_iff (pairsBack.proper.reads fits)).2 closer
    · have fractions := fraction_le_of_value_le pairs.proper pairsBack.proper small closer
      rw [← correlationBy_correlate fraction pairs.1, ← correlationBy_correlate fraction pairsBack.1]
        at fractions
      exact fractions

namespace Chain

/-- A routine with a line for its head and one for its body. -/
def routine (name : String) (line : Nat) : Routine :=
  .ofDefinition name "a.js" (.spanning name .function line (line + 1))

def graph : CallGraph :=
  .ofParts [routine "load" 1, routine "step" 3, routine "save" 5] []

def commit (first last : Nat) : Commit :=
  ⟨"", "", 0, "", false, [⟨"a.js", [⟨first, last⟩]⟩]⟩

/-- Half of the commits of `load` touch `step` too, which has more in common with `save`. -/
def commits : List Commit :=
  [commit 1 4, commit 1 1, commit 3 6, commit 3 6]

def log : ActivityLog :=
  .correlate graph ⟨[("a.js", "a.js")]⟩ commits 10

def evidence : Evidence :=
  ⟨graph, Profile.of graph, some log, [], 1⟩

open ActivityLog

theorem companion_of_load {α : Type} [LT α] [DecidableLT α] (share : Nat → Nat → α) :
    log.companionBy? share "load" 1 = some ⟨"step", share 1 2, 1⟩ := by
  rfl

theorem codependence_is_mutual_for_load :
    (log.inseparable? fraction (1 / 2) "load" 1 = some ⟨"step", fraction 1 2, 1⟩ ∧
      commits.length < 2 ^ 64 ∧
      ∃ found, Detector.codependent evidence (routine "load" 1) = some found ∧
        found.detail = .codependent "step" (ratio 1 2) 1) ∧
    (∃ back, log.inseparable? fraction (1 / 2) "step" 1 = some back ∧
      fraction 1 2 ≤ back.correlation) ∧
    ∃ answer other y k, Detector.codependent evidence (routine "step" 3) = some answer ∧
      answer.detail = .codependent other y k ∧ ratio 1 2 ≤ y := by
  obtain ⟨exact, doubles⟩ :=
    codependence_is_mutual graph ⟨[("a.js", "a.js")]⟩ commits 10 1 (Profile.of graph) []
  have companion : log.inseparable? fraction (1 / 2) "load" 1 = some ⟨"step", fraction 1 2, 1⟩ :=
    inseparable?_eq_some_iff.2 ⟨companion_of_load fraction, by norm_num [fraction]⟩
  have detected : ∃ found, Detector.codependent evidence (routine "load" 1) = some found ∧
      found.detail = .codependent "step" (ratio 1 2) 1 :=
    (Detector.codependent_detail_iff rfl).2
      (inseparable?_eq_some_iff.2 ⟨companion_of_load ratio, by decide⟩)
  have few : commits.length < 2 ^ 64 := by decide
  obtain ⟨found, matched, detail⟩ := detected
  obtain ⟨-, -, back, answer, closer⟩ := exact "load" _ companion
  obtain ⟨-, replies⟩ := doubles few _ found _ _ _ matched detail
  obtain ⟨reply, other, y, k, answered, partnered, atLeast, -⟩ := replies (routine "step" 3) rfl
  exact ⟨⟨companion, few, found, matched, detail⟩, ⟨back, answer, closer⟩,
    reply, other, y, k, answered, partnered, atLeast⟩

end Chain

end LoadBearing
