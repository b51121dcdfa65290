import LoadBearing.Proofs.Comparison

/-! # Comparing the other way round

Turning a comparison around turns every difference around: what was added is removed, every metric
moves by the same amount the other way, and gains are losses.  The thresholds for growth and relief
mirror each other, so the verdicts do too, but for one thing.  Stress goes before relief, and a
routine that shows both is stressed from either side.
-/

namespace LoadBearing

/-! ## Metrics -/

/-- The metrics of a snapshot fit into signed words. -/
structure Snapshot.Fits (s : Snapshot) : Prop where
  complexity : s.complexity < 2 ^ 63
  fanIn : s.fanIn < 2 ^ 63
  fanOut : s.fanOut < 2 ^ 63
  crossFanOut : s.crossFanOut < 2 ^ 63
  length : s.length < 2 ^ 63

namespace Delta

instance : Neg Delta where
  neg d := ⟨-d.complexity, -d.fanIn, -d.fanOut, -d.crossFanOut, -d.length⟩

theorem neg_eq (d : Delta) :
    -d = ⟨-d.complexity, -d.fanIn, -d.fanOut, -d.crossFanOut, -d.length⟩ := rfl

theorem step_eq_sub {before after : Nat} (beforeFits : before < 2 ^ 63) (afterFits : after < 2 ^ 63) :
    step before after = after - before := by
  have range : ((bitRange 64 : Nat) : Int) = 2 ^ 64 := rfl
  exact Int.bmod_eq_of_le_mul_two (by omega) (by omega)

theorem step_swap {before after : Nat} (beforeFits : before < 2 ^ 63) (afterFits : after < 2 ^ 63) :
    step after before = -step before after := by
  rw [step_eq_sub beforeFits afterFits, step_eq_sub afterFits beforeFits, Int.neg_sub]

theorem between_swap {before after : Snapshot} (beforeFits : before.Fits) (afterFits : after.Fits) :
    between after before = -between before after := by
  rw [neg_eq, between, between, step_swap beforeFits.complexity afterFits.complexity,
    step_swap beforeFits.fanIn afterFits.fanIn, step_swap beforeFits.fanOut afterFits.fanOut,
    step_swap beforeFits.crossFanOut afterFits.crossFanOut,
    step_swap beforeFits.length afterFits.length]

theorem isStress_neg (d : Delta) : (-d).isStress = d.isRelief := by
  simp only [neg_eq, isStress, isRelief, @Int.le_neg_iff complexityStep,
    @Int.le_neg_iff fanOutStep, @Int.le_neg_iff fanInStep, @Int.le_neg_iff crossStep]

theorem isRelief_neg (d : Delta) : (-d).isRelief = d.isStress := by
  simp only [neg_eq, isStress, isRelief, Int.neg_le_neg_iff]

theorem severity_neg (d : Delta) : (-d).severity = d.severity := by
  simp only [neg_eq, severity, size, Int.natAbs_neg]

end Delta

/-! ## Differences -/

def Fate.reverse : Fate → Fate
  | .added new => .removed new
  | .removed old => .added old
  | .changed old new => .changed new old

@[simp] theorem Fate.reverse_reverse (fate : Fate) : fate.reverse.reverse = fate := by
  cases fate <;> rfl

namespace Difference

def reverse (d : Difference) : Difference :=
  ⟨d.key, d.fate.reverse⟩

def Fits (d : Difference) : Prop :=
  ∀ s, d.before? = some s ∨ d.after? = some s → s.Fits

variable {d : Difference}

@[simp] theorem reverse_reverse (d : Difference) : d.reverse.reverse = d := by
  simp [reverse]

theorem before?_reverse (d : Difference) : d.reverse.before? = d.after? := by
  obtain ⟨key, fate⟩ := d
  cases fate <;> rfl

theorem after?_reverse (d : Difference) : d.reverse.after? = d.before? := by
  obtain ⟨key, fate⟩ := d
  cases fate <;> rfl

theorem gained_reverse (d : Difference) : d.reverse.gained = d.lost := by
  rw [gained, lost, before?_reverse, after?_reverse]

theorem lost_reverse (d : Difference) : d.reverse.lost = d.gained := by
  rw [gained, lost, before?_reverse, after?_reverse]

theorem status_reverse (d : Difference) :
    (d.reverse.status = "added" ↔ d.status = "removed") ∧
      (d.reverse.status = "removed" ↔ d.status = "added") ∧
      (d.reverse.status = "changed" ↔ d.status = "changed") := by
  obtain ⟨key, fate⟩ := d
  cases fate <;> simp [reverse, Fate.reverse, status]

theorem Fits.delta_reverse (fits : d.Fits) : d.reverse.delta = -d.delta := by
  obtain ⟨key, fate⟩ := d
  cases fate with
  | added new => rfl
  | removed old => rfl
  | changed old new => exact Delta.between_swap (fits old (.inl rfl)) (fits new (.inr rfl))

theorem Fits.severity_reverse (fits : d.Fits) : d.reverse.severity = d.severity := by
  obtain ⟨key, fate⟩ := d
  cases fate with
  | added new => rfl
  | removed old => rfl
  | changed old new =>
    have turned := Delta.between_swap (fits old (.inl rfl)) (fits new (.inr rfl))
    simp only [severity, reverse, Fate.reverse, turned, Delta.severity_neg]

theorem verdict?_eq (d : Difference) :
    d.verdict? = if d.status = "changed" then
        if d.delta.isStress || d.gained.any Archetype.isConcerning then some .stressed
        else if d.delta.isRelief || d.lost.any Archetype.isConcerning then some .improved
        else some .neutral
      else none := by
  obtain ⟨key, fate⟩ := d
  cases fate <;> simp [verdict?, status, gainedConcerning, lostConcerning]

theorem Fits.verdict?_reverse (fits : d.Fits) :
    d.reverse.verdict? = if d.status = "changed" then
        if d.delta.isRelief || d.lost.any Archetype.isConcerning then some .stressed
        else if d.delta.isStress || d.gained.any Archetype.isConcerning then some .improved
        else some .neutral
      else none := by
  rw [verdict?_eq, fits.delta_reverse, Delta.isStress_neg, Delta.isRelief_neg, gained_reverse,
    lost_reverse]
  simp only [(status_reverse d).2.2]

theorem Fits.neutral_reverse (fits : d.Fits) :
    d.reverse.verdict? = some .neutral ↔ d.verdict? = some .neutral := by
  rw [fits.verdict?_reverse, verdict?_eq]
  grind

theorem Fits.stressed_reverse (fits : d.Fits) (improved : d.verdict? = some .improved) :
    d.reverse.verdict? = some .stressed := by
  rw [verdict?_eq] at improved
  rw [fits.verdict?_reverse]
  grind

theorem Fits.reverse (fits : d.Fits) : d.reverse.Fits := by
  intro s side
  rw [before?_reverse, after?_reverse] at side
  exact fits s side.symm

/-- Two differences that tell the same story from opposite sides.  A routine that shows growth and
    relief at once is stressed from either side, so `Stressed` alone says nothing of the other
    verdict. -/
structure Mirrors (d e : Difference) : Prop where
  key : e.key = d.key
  status : (e.status = "added" ↔ d.status = "removed") ∧ (e.status = "removed" ↔ d.status = "added") ∧
    (e.status = "changed" ↔ d.status = "changed")
  delta : e.delta = -d.delta
  severity : e.severity = d.severity
  archetypes : e.gained = d.lost ∧ e.lost = d.gained
  neutral : e.verdict? = some .neutral ↔ d.verdict? = some .neutral
  improved : d.verdict? = some .improved → e.verdict? = some .stressed
  improved_back : e.verdict? = some .improved → d.verdict? = some .stressed

theorem Fits.mirrors (fits : d.Fits) : d.Mirrors d.reverse where
  key := rfl
  status := d.status_reverse
  delta := fits.delta_reverse
  severity := fits.severity_reverse
  archetypes := ⟨d.gained_reverse, d.lost_reverse⟩
  neutral := fits.neutral_reverse
  improved := fits.stressed_reverse
  improved_back improved := by
    have stressed := fits.reverse.stressed_reverse improved
    rwa [reverse_reverse] at stressed

theorem Fits.isQuiet_reverse (fits : d.Fits) : d.reverse.isQuiet = d.isQuiet := by
  rw [Bool.eq_iff_iff, isQuiet_iff, isQuiet_iff, Unmoved, Unmoved, fits.neutral_reverse,
    before?_reverse, after?_reverse, eq_comm (a := (archetypesOf d.after?).toFinset)]

theorem verdict?_isSome_iff : d.verdict?.isSome = true ↔ d.status = "changed" := by
  rw [verdict?_eq]
  grind

theorem countP_verdicts (differences : List Difference) :
    differences.countP (fun d => d.verdict? = some .stressed)
        + differences.countP (fun d => d.verdict? = some .improved)
      = differences.countP fun d => d.status = "changed" ∧ d.verdict? ≠ some .neutral := by
  induction differences with
  | nil => rfl
  | cons d rest ih =>
    -- A changed routine has a verdict, and one that is not neutral is one of the two others.
    have some := d.verdict?_isSome_iff
    simp only [List.countP_cons, ← ih, ← some]
    cases d.verdict? with
    | none => simp
    | some v => cases v <;> simp <;> omega

end Difference

/-! ## Comparisons -/

namespace Comparison

section Swap

variable {before after : Table Snapshot}

theorem fateOf_swap (before after : Table Snapshot) (key : String) :
    fateOf after before key = (fateOf before after key).map Fate.reverse := by
  rw [fateOf, fateOf]
  cases before.find? key <;> cases after.find? key <;> rfl

theorem mem_everything_swap (beforeOrdered : before.Ordered) (afterOrdered : after.Ordered)
    {d : Difference} : d ∈ everything after before ↔ d.reverse ∈ everything before after := by
  rw [mem_everything afterOrdered beforeOrdered, mem_everything beforeOrdered afterOrdered,
    fateOf_swap before after]
  simp only [Difference.reverse, Option.map_eq_some_iff]
  constructor
  · rintro ⟨other, found, turned⟩
    rw [found, ← turned, Fate.reverse_reverse]
  · exact fun found => ⟨_, found, Fate.reverse_reverse _⟩

theorem everything_swap (beforeOrdered : before.Ordered) (afterOrdered : after.Ordered) :
    (everything after before).Perm ((everything before after).map Difference.reverse) := by
  have injective : Function.Injective Difference.reverse :=
    Function.Involutive.injective Difference.reverse_reverse
  have nodup := (nodup_keys_everything beforeOrdered afterOrdered).of_map
  have nodupSwapped := (nodup_keys_everything afterOrdered beforeOrdered).of_map
  rw [List.perm_ext_iff_of_nodup nodupSwapped (nodup.map injective)]
  intro d
  rw [mem_everything_swap beforeOrdered afterOrdered, List.mem_map]
  constructor
  · exact fun member => ⟨_, member, d.reverse_reverse⟩
  · rintro ⟨other, member, rfl⟩
    rwa [Difference.reverse_reverse]

theorem sides_of_mem (beforeOrdered : before.Ordered) (afterOrdered : after.Ordered)
    {d : Difference} (member : d ∈ everything before after) :
    d.before? = before.find? d.key ∧ d.after? = after.find? d.key := by
  rw [mem_everything beforeOrdered afterOrdered, fateOf] at member
  obtain ⟨key, fate⟩ := d
  cases earlier : before.find? key <;> cases later : after.find? key <;>
    simp only [earlier, later, Option.some.injEq, reduceCtorEq] at member <;>
    subst member <;> exact ⟨rfl, rfl⟩

variable (beforeOrdered : before.Ordered) (afterOrdered : after.Ordered)
  (beforeFits : ∀ entry ∈ before, entry.2.Fits) (afterFits : ∀ entry ∈ after, entry.2.Fits)

include beforeOrdered afterOrdered beforeFits afterFits

theorem fits_of_mem {d : Difference} (member : d ∈ everything before after) : d.Fits := by
  obtain ⟨earlier, later⟩ := sides_of_mem beforeOrdered afterOrdered member
  rintro s (side | side)
  · exact beforeFits _ (Table.mem_of_find? (earlier ▸ side))
  · exact afterFits _ (Table.mem_of_find? (later ▸ side))

theorem fits_of_listed {beforeName afterName : String} {d : Difference}
    (member : d ∈ (compare beforeName afterName before after).differences) : d.Fits :=
  fits_of_mem beforeOrdered afterOrdered beforeFits afterFits
    (List.mem_of_mem_filter ((differences_perm ..).mem_iff.1 member))

theorem differences_swap (beforeName afterName : String) :
    (compare afterName beforeName after before).differences.Perm
      ((compare beforeName afterName before after).differences.map Difference.reverse) := by
  refine (differences_perm ..).trans ?_
  refine .trans ?_ ((differences_perm ..).map _).symm
  refine ((everything_swap beforeOrdered afterOrdered).filter _).trans (.of_eq ?_)
  rw [List.filter_map]
  congr 1
  refine List.filter_congr fun d member => ?_
  simp only [Function.comp_apply,
    (fits_of_mem beforeOrdered afterOrdered beforeFits afterFits member).isQuiet_reverse]

theorem unchanged_swap (beforeName afterName : String) :
    (compare afterName beforeName after before).summary.unchanged
      = (compare beforeName afterName before after).summary.unchanged := by
  refine (accounts_tally after before).unchanged.trans
    (.trans ?_ (accounts_tally before after).unchanged.symm)
  rw [(everything_swap beforeOrdered afterOrdered).countP_eq, List.countP_map]
  refine List.countP_congr fun d member => ?_
  simp only [Function.comp_apply,
    (fits_of_mem beforeOrdered afterOrdered beforeFits afterFits member).isQuiet_reverse]

theorem countP_swap (beforeName afterName : String) {asked other : Difference → Prop}
    [DecidablePred asked] [DecidablePred other]
    (turns : ∀ d : Difference, d.Fits → (asked d.reverse ↔ other d)) :
    (compare afterName beforeName after before).differences.countP (fun d => asked d)
      = (compare beforeName afterName before after).differences.countP fun d => other d := by
  rw [(differences_swap beforeOrdered afterOrdered beforeFits afterFits _ _).countP_eq,
    List.countP_map]
  refine List.countP_congr fun d member => ?_
  simp only [Function.comp_apply, decide_eq_true_eq]
  exact turns d (fits_of_listed beforeOrdered afterOrdered beforeFits afterFits member)

theorem eq_reverse_of_key_eq (beforeName afterName : String) {d e : Difference}
    (member : d ∈ (compare beforeName afterName before after).differences)
    (other : e ∈ (compare afterName beforeName after before).differences) (same : e.key = d.key) :
    e = d.reverse := by
  have swapped := differences_swap beforeOrdered afterOrdered beforeFits afterFits beforeName afterName
  have nodup : ((compare afterName beforeName after before).differences.map Difference.key).Nodup := by
    rw [((differences_perm ..).map _).nodup_iff]
    exact (nodup_keys_everything afterOrdered beforeOrdered).sublist
      (List.filter_sublist.map Difference.key)
  -- The reversed entry is listed too, and no key is listed twice.
  exact List.inj_on_of_nodup_map nodup other (swapped.mem_iff.2 (List.mem_map_of_mem member)) same

end Swap

/-- Comparing the other way round lists the same keys and mirrors every entry, and so every verdict on
    a key of both sides, listed or not.  What moved in a way that counts is the same either way. -/
theorem compare_other_way_round (beforeName afterName : String) (before after : Table Snapshot)
    (beforeOrdered : before.Ordered) (afterOrdered : after.Ordered)
    (beforeFits : ∀ entry ∈ before, entry.2.Fits) (afterFits : ∀ entry ∈ after, entry.2.Fits) :
    let there := compare beforeName afterName before after
    let back := compare afterName beforeName after before
    (back.differences.map Difference.key).Perm (there.differences.map Difference.key) ∧
    (back.summary.added = there.summary.removed ∧ back.summary.removed = there.summary.added ∧
      back.summary.unchanged = there.summary.unchanged ∧
      back.summary.stressed + back.summary.improved
        = there.summary.stressed + there.summary.improved) ∧
    (∀ d ∈ there.differences, ∀ e ∈ back.differences, e.key = d.key → d.Mirrors e) ∧
    ∀ key old new, before.find? key = some old → after.find? key = some new →
      Difference.Mirrors ⟨key, .changed old new⟩ ⟨key, .changed new old⟩ := by
  intro there back
  have swapped := differences_swap beforeOrdered afterOrdered beforeFits afterFits beforeName afterName
  have count := @countP_swap before after beforeOrdered afterOrdered beforeFits afterFits
    beforeName afterName
  obtain ⟨added, removed, stressed, improved⟩ := totals beforeName afterName before after
  obtain ⟨addedBack, removedBack, stressedBack, improvedBack⟩ :=
    totals afterName beforeName after before
  refine ⟨?_, ⟨?_, ?_, ?_, ?_⟩, fun d member e other same => ?_, fun key old new earlier later => ?_⟩
  · have keys := swapped.map Difference.key
    rwa [List.map_map] at keys
  · rw [addedBack, removed]
    exact count fun d _ => d.status_reverse.1
  · rw [removedBack, added]
    exact count fun d _ => d.status_reverse.2.1
  · exact unchanged_swap beforeOrdered afterOrdered beforeFits afterFits beforeName afterName
  · rw [stressedBack, improvedBack, stressed, improved, Difference.countP_verdicts,
      Difference.countP_verdicts]
    exact count fun d fits => and_congr d.status_reverse.2.2 (not_congr fits.neutral_reverse)
  · have fits := fits_of_listed beforeOrdered afterOrdered beforeFits afterFits member
    rw [eq_reverse_of_key_eq beforeOrdered afterOrdered beforeFits afterFits _ _ member other same]
    exact fits.mirrors
  · have happened : ⟨key, .changed old new⟩ ∈ everything before after :=
      (mem_everything beforeOrdered afterOrdered).2 (fateOf_eq_changed_iff.2 ⟨earlier, later⟩)
    exact (fits_of_mem beforeOrdered afterOrdered beforeFits afterFits happened).mirrors

namespace Sample

theorem snapshot_fits {complexity : Nat} (small : complexity < 2 ^ 63) (name : String)
    (archetypes : List Archetype) : (snapshot name complexity archetypes).Fits :=
  ⟨small, Nat.two_pow_pos 63, Nat.two_pow_pos 63, Nat.two_pow_pos 63, by show 1 < 2 ^ 63; decide⟩

theorem before_fits : ∀ entry ∈ before, entry.2.Fits := by
  simp only [before, List.forall_mem_cons]
  exact ⟨snapshot_fits (by decide) _ _, snapshot_fits (by decide) _ _,
    snapshot_fits (by decide) _ _, snapshot_fits (by decide) _ _, by simp⟩

theorem after_fits : ∀ entry ∈ after, entry.2.Fits := by
  simp only [after, List.forall_mem_cons]
  exact ⟨snapshot_fits (by decide) _ _, snapshot_fits (by decide) _ _,
    snapshot_fits (by decide) _ _, snapshot_fits (by decide) _ _, by simp⟩

/-- What grew is improved when seen from the other side, and what was made is dropped. -/
theorem compare_other_way_round_sample :
    let there := compare "HEAD~1" "HEAD" before after
    let back := compare "HEAD" "HEAD~1" after before
    ((before.Ordered ∧ after.Ordered) ∧ (∀ entry ∈ before, entry.2.Fits) ∧
      ∀ entry ∈ after, entry.2.Fits) ∧
    back.summary.removed = there.summary.added ∧
    (∀ d ∈ there.differences, ∀ e ∈ back.differences, e.key = d.key → e.delta = -d.delta) ∧
    Difference.verdict? ⟨"grow", .changed (snapshot "grow" 4 []) (snapshot "grow" 1 [])⟩
      = some .improved ∧
    Difference.verdict? ⟨"grow", .changed (snapshot "grow" 1 []) (snapshot "grow" 4 [])⟩
      = some .stressed := by
  intro there back
  obtain ⟨-, ⟨-, removed, -⟩, entries, verdicts⟩ :=
    compare_other_way_round "HEAD~1" "HEAD" before after before_ordered after_ordered before_fits
      after_fits
  have improved : Difference.verdict? ⟨"grow", .changed (snapshot "grow" 4 []) (snapshot "grow" 1 [])⟩
      = some .improved := by decide
  have grow := verdicts "grow" (snapshot "grow" 1 []) (snapshot "grow" 4 []) rfl rfl
  exact ⟨⟨⟨before_ordered, after_ordered⟩, before_fits, after_fits⟩, removed,
    fun d member e other same => (entries d member e other same).delta, improved,
    grow.improved_back improved⟩

end Sample

end Comparison

end LoadBearing
