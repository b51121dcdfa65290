import Mathlib.Data.Finset.Card
import Mathlib.Data.List.Nodup
import LoadBearing.Comparison.Compare
import LoadBearing.Proofs.Table

/-! # A comparison accounts for every routine

What happened to a key depends on what the two sides store under it and on nothing else: `fateOf`
says it for one key.  The two scans of a comparison visit every key of either side once, so the part
of `everything` that is about a key is the fate of that key.

The scans bump their counters on the way.  `Tally.Accounts` relates the counters and the list to what
the scans have met so far; one entry keeps it true, and so do both scans.
-/

namespace LoadBearing

/-! ## Differences -/

namespace Difference

/-- A difference that is counted without being listed. -/
def isQuiet (d : Difference) : Bool :=
  d.verdict? = some .neutral && d.gained.isEmpty && d.lost.isEmpty

/-- Nothing about a routine moved that matters: it is neutral and has the archetypes it had. -/
def Unmoved (d : Difference) : Prop :=
  d.verdict? = some .neutral ∧
    (archetypesOf d.before?).toFinset = (archetypesOf d.after?).toFinset

instance : DecidablePred Unmoved :=
  fun _ => inferInstanceAs (Decidable (_ ∧ _))

variable {d : Difference}

theorem isQuiet_iff : d.isQuiet = true ↔ d.Unmoved := by
  simp only [isQuiet, Unmoved, Bool.and_eq_true, decide_eq_true_eq, List.isEmpty_iff, gained, lost,
    List.filter_eq_nil_iff, Bool.not_eq_true, Bool.not_eq_false', List.contains_iff_mem, and_assoc]
  constructor
  · rintro ⟨neutral, nothingGained, nothingLost⟩
    refine ⟨neutral, Finset.ext fun a => ?_⟩
    simp only [List.mem_toFinset]
    exact ⟨nothingLost a, nothingGained a⟩
  · rintro ⟨neutral, same⟩
    have members : ∀ a, a ∈ archetypesOf d.before? ↔ a ∈ archetypesOf d.after? := by
      simpa [Finset.ext_iff] using same
    exact ⟨neutral, fun a => (members a).2, fun a => (members a).1⟩

theorem group_spec (d : Difference) :
    (d.group = 1 ↔ d.status = "added") ∧ (d.group = 4 ↔ d.status = "removed") ∧
      (d.group = 0 ↔ d.verdict? = some .stressed) ∧ (d.group = 2 ↔ d.verdict? = some .improved) := by
  obtain ⟨key, fate⟩ := d
  cases fate with
  | added new => simp [group, status, verdict?]
  | removed old => simp [group, status, verdict?]
  | changed old new =>
    cases verdict : verdict? ⟨key, .changed old new⟩ with
    | none => simp [group, status, verdict]
    | some v => cases v <;> simp [group, status, verdict]

theorem exists_verdict (key : String) (old new : Snapshot) :
    ∃ v, verdict? ⟨key, .changed old new⟩ = some v := by
  simp only [verdict?]
  split
  · exact ⟨_, rfl⟩
  · split <;> exact ⟨_, rfl⟩

theorem Unmoved.status_eq (unmoved : d.Unmoved) : d.status = "changed" := by
  obtain ⟨key, fate⟩ := d
  cases fate with
  | added new => simp [Unmoved, verdict?] at unmoved
  | removed old => simp [Unmoved, verdict?] at unmoved
  | changed old new => rfl

/-- Only a neutral routine of both sides can be quiet. -/
theorem isQuiet_eq_false (d : Difference)
    (moved : d.status ≠ "changed" ∨ d.verdict? ≠ some .neutral) : d.isQuiet = false := by
  rw [Bool.eq_false_iff, Ne, isQuiet_iff]
  intro unmoved
  exact moved.elim (· unmoved.status_eq) (· unmoved.1)

end Difference

/-! ## Keys -/

namespace Comparison

/-- What happened to a key of either side. -/
def fateOf (before after : Table Snapshot) (key : String) : Option Fate :=
  match before.find? key, after.find? key with
  | none, none => none
  | none, some new => some (.added new)
  | some old, none => some (.removed old)
  | some old, some new => some (.changed old new)

def arrival (before : Table Snapshot) (key : String) (new : Snapshot) : Difference :=
  match before.find? key with
  | some old => ⟨key, .changed old new⟩
  | none => ⟨key, .added new⟩

def arrivals (before after : Table Snapshot) : List Difference :=
  after.map fun entry => arrival before entry.1 entry.2

def departures (before after : Table Snapshot) : List Difference :=
  (before.filter fun entry => !after.has entry.1).map fun entry => ⟨entry.1, .removed entry.2⟩

/-- Everything that happened, listed or not. -/
def everything (before after : Table Snapshot) : List Difference :=
  arrivals before after ++ departures before after

section Keys

variable {before after : Table Snapshot}

theorem key_arrival (key : String) (new : Snapshot) : (arrival before key new).key = key := by
  rw [arrival]
  split <;> rfl

theorem filter_arrivals (ordered : after.Ordered) (key : String) :
    (arrivals before after).filter (fun d => d.key = key)
      = (after.find? key).toList.map (arrival before key) := by
  rw [arrivals, List.filter_map]
  simp only [Function.comp_def, key_arrival]
  rw [ordered.filter_key, List.map_map]
  rfl

theorem filter_departures (ordered : before.Ordered) (key : String) :
    (departures before after).filter (fun d => d.key = key)
      = if after.has key then [] else
          (before.find? key).toList.map fun old => ⟨key, .removed old⟩ := by
  have kept : (before.filter fun entry => !after.has entry.1).filter (fun entry => entry.1 = key)
      = (before.filter fun entry => entry.1 = key).filter fun _ => !after.has key := by
    rw [List.filter_filter, List.filter_filter]
    refine List.filter_congr fun entry _ => ?_
    by_cases same : entry.1 = key <;> simp [same]
  rw [departures, List.filter_map]
  simp only [Function.comp_def]
  rw [kept, ordered.filter_key]
  by_cases present : after.has key = true
  · simp [present]
  · simp [present]

/-- The part of everything that is about a key is its fate. -/
theorem filter_everything (beforeOrdered : before.Ordered) (afterOrdered : after.Ordered)
    (key : String) :
    (everything before after).filter (fun d => d.key = key)
      = (fateOf before after key).toList.map (Difference.mk key) := by
  rw [everything, List.filter_append, filter_arrivals afterOrdered, filter_departures beforeOrdered,
    fateOf, Table.has]
  cases earlier : before.find? key <;> cases later : after.find? key <;> simp [arrival, earlier]

theorem mem_everything (beforeOrdered : before.Ordered) (afterOrdered : after.Ordered)
    {d : Difference} : d ∈ everything before after ↔ fateOf before after d.key = some d.fate := by
  have about : d ∈ everything before after ↔
      d ∈ (everything before after).filter fun other => other.key = d.key := by simp
  rw [about, filter_everything beforeOrdered afterOrdered]
  obtain ⟨key, fate⟩ := d
  simp

theorem nodup_keys_everything (beforeOrdered : before.Ordered) (afterOrdered : after.Ordered) :
    ((everything before after).map Difference.key).Nodup := by
  rw [List.nodup_iff_count_le_one]
  intro key
  have found : ((everything before after).map Difference.key).count key
      = ((everything before after).filter fun d => d.key = key).length := by
    rw [List.count, List.countP_map, List.countP_eq_length_filter]
    rfl
  rw [found, filter_everything beforeOrdered afterOrdered, List.length_map]
  cases fateOf before after key <;> simp

/-! ## Totals -/

def common (before after : Table Snapshot) : Finset String :=
  (Table.keys before).toFinset ∩ (Table.keys after).toFinset

theorem mem_common {key : String} : key ∈ common before after ↔
    ∃ old new, before.find? key = some old ∧ after.find? key = some new := by
  simp [common, Table.mem_keys_iff]

/-- Whether a difference says of a key of both sides what is asked. -/
def OnBoth (before after : Table Snapshot) (asked : Difference → Prop) (key : String) : Prop :=
  ∃ old ∈ before.find? key, ∃ new ∈ after.find? key, asked ⟨key, .changed old new⟩

instance (asked : Difference → Prop) [DecidablePred asked] :
    DecidablePred (OnBoth before after asked) :=
  fun key => inferInstanceAs
    (Decidable (∃ old ∈ before.find? key, ∃ new ∈ after.find? key, asked ⟨key, .changed old new⟩))

theorem fateOf_eq_changed_iff {key : String} {old new : Snapshot} :
    fateOf before after key = some (.changed old new) ↔
      before.find? key = some old ∧ after.find? key = some new := by
  rw [fateOf]
  cases before.find? key <;> cases after.find? key <;> simp

theorem exists_changed_iff (beforeOrdered : before.Ordered) (afterOrdered : after.Ordered)
    {asked : Difference → Prop} {key : String} :
    (∃ d ∈ everything before after, (d.status = "changed" ∧ asked d) ∧ d.key = key) ↔
      OnBoth before after asked key := by
  constructor
  · rintro ⟨⟨_, fate⟩, member, ⟨changed, holds⟩, rfl⟩
    rw [mem_everything beforeOrdered afterOrdered] at member
    cases fate with
    | added new => simp [Difference.status] at changed
    | removed old => simp [Difference.status] at changed
    | changed old new =>
      obtain ⟨earlier, later⟩ := fateOf_eq_changed_iff.1 member
      exact ⟨old, earlier, new, later, holds⟩
  · rintro ⟨old, earlier, new, later, holds⟩
    refine ⟨⟨key, .changed old new⟩, ?_, ⟨rfl, holds⟩, rfl⟩
    rw [mem_everything beforeOrdered afterOrdered]
    exact fateOf_eq_changed_iff.2 ⟨earlier, later⟩

/-- Differences of keys on both sides are counted by their keys. -/
theorem countP_changed (beforeOrdered : before.Ordered) (afterOrdered : after.Ordered)
    (asked : Difference → Prop) [DecidablePred asked] :
    (everything before after).countP (fun d => d.status = "changed" ∧ asked d)
      = ((common before after).filter (OnBoth before after asked)).card := by
  have nodup : (((everything before after).filter fun d => d.status = "changed" ∧ asked d).map
      Difference.key).Nodup :=
    (nodup_keys_everything beforeOrdered afterOrdered).sublist
      (List.filter_sublist.map Difference.key)
  rw [List.countP_eq_length_filter, ← List.length_map Difference.key,
    ← List.toFinset_card_of_nodup nodup]
  congr 1
  ext key
  have found : key ∈ (((everything before after).filter fun d =>
      d.status = "changed" ∧ asked d).map Difference.key).toFinset ↔
        OnBoth before after asked key := by
    rw [← exists_changed_iff beforeOrdered afterOrdered]
    simp only [List.mem_toFinset, List.mem_map, List.mem_filter, decide_eq_true_eq, and_assoc]
  rw [found, Finset.mem_filter, iff_and_self]
  rintro ⟨old, earlier, new, later, -⟩
  exact mem_common.2 ⟨old, new, earlier, later⟩

end Keys

/-! ## The scans -/

/-- A tally that is right about what the scans have met: quiet differences are counted and left out
    of the list, and every other counter has the number of differences of its kind. -/
structure Tally.Accounts (t : Tally) (met : List Difference) : Prop where
  listed : t.listed = met.filter fun d => !d.isQuiet
  added : t.summary.added = met.countP fun d => d.status = "added"
  removed : t.summary.removed = met.countP fun d => d.status = "removed"
  stressed : t.summary.stressed = met.countP fun d => d.verdict? = some .stressed
  improved : t.summary.improved = met.countP fun d => d.verdict? = some .improved
  unchanged : t.summary.unchanged = met.countP Difference.isQuiet

namespace Tally.Accounts

variable {t : Tally} {met : List Difference} {before after : Table Snapshot}

theorem nil : Accounts {} [] := ⟨rfl, rfl, rfl, rfl, rfl, rfl⟩

/-- The verdict alone decides which counter moves, and a neutral one leaves it to the archetypes. -/
theorem judge (accounts : t.Accounts met) {d : Difference} {v : Verdict}
    (changed : d.status = "changed") (verdict : d.verdict? = some v) :
    (t.judge d).Accounts (met ++ [d]) := by
  obtain ⟨listed, added, removed, stressed, improved, unchanged⟩ := accounts
  cases v with
  | stressed => constructor <;> simp [Tally.judge, list, countStressed, Difference.isQuiet, *]
  | improved => constructor <;> simp [Tally.judge, list, countImproved, Difference.isQuiet, *]
  | neutral =>
    by_cases still : d.gained.isEmpty && d.lost.isEmpty
    · have quiet : d.isQuiet = true := by simpa [Difference.isQuiet, verdict] using still
      constructor <;> simp [Tally.judge, countUnchanged, *]
    · have loud : d.isQuiet = false := by simpa [Difference.isQuiet, verdict] using still
      constructor <;> simp [Tally.judge, list, *]

theorem arrive (accounts : t.Accounts met) (key : String) (new : Snapshot) :
    (t.arrive before (key, new)).Accounts (met ++ [arrival before key new]) := by
  rw [Tally.arrive, arrival]
  cases before.find? key with
  | none =>
    obtain ⟨listed, added, removed, stressed, improved, unchanged⟩ := accounts
    constructor <;>
      simp [list, countAdded, Difference.isQuiet, Difference.status, Difference.verdict?, *]
  | some old =>
    obtain ⟨v, verdict⟩ := Difference.exists_verdict key old new
    exact accounts.judge rfl verdict

theorem depart (accounts : t.Accounts met) {key : String} (gone : after.has key = false)
    (old : Snapshot) :
    (t.depart after (key, old)).Accounts (met ++ [⟨key, .removed old⟩]) := by
  obtain ⟨listed, added, removed, stressed, improved, unchanged⟩ := accounts
  constructor <;>
    simp [Tally.depart, list, countRemoved, Difference.isQuiet, Difference.status,
      Difference.verdict?, *]

theorem foldl_arrive (accounts : t.Accounts met) (entries : Table Snapshot) :
    (entries.foldl (Tally.arrive before) t).Accounts (met ++ arrivals before entries) := by
  induction entries generalizing t met with
  | nil => simpa [arrivals] using accounts
  | cons entry rest ih =>
    simpa [arrivals] using ih (accounts.arrive entry.1 entry.2)

theorem foldl_depart (accounts : t.Accounts met) (entries : Table Snapshot) :
    (entries.foldl (Tally.depart after) t).Accounts (met ++ departures entries after) := by
  induction entries generalizing t met with
  | nil => simpa [departures] using accounts
  | cons entry rest ih =>
    by_cases kept : after.has entry.1 = true
    · simpa [departures, Tally.depart, kept] using ih accounts
    · rw [Bool.not_eq_true] at kept
      simpa [departures, kept] using ih (accounts.depart kept entry.2)

end Tally.Accounts

/-- Both scans together account for everything that happened. -/
theorem accounts_tally (before after : Table Snapshot) :
    (tally before after).Accounts (everything before after) :=
  (Tally.Accounts.nil.foldl_arrive after).foldl_depart before

/-! ## The comparison -/

section Compare

variable {before after : Table Snapshot} (beforeName afterName : String)

theorem differences_perm (before after : Table Snapshot) :
    (compare beforeName afterName before after).differences.Perm
      ((everything before after).filter fun d => !d.isQuiet) := by
  rw [← (accounts_tally before after).listed]
  exact List.mergeSort_perm _ _

theorem filter_differences (beforeOrdered : before.Ordered) (afterOrdered : after.Ordered)
    (key : String) :
    (compare beforeName afterName before after).differences.filter (fun d => d.key = key)
      = ((fateOf before after key).toList.map (Difference.mk key)).filter fun d => !d.isQuiet := by
  have shuffled := (differences_perm beforeName afterName before after).filter fun d => d.key = key
  rw [List.filter_comm, filter_everything beforeOrdered afterOrdered] at shuffled
  -- A key has one fate at most, so there is nothing to shuffle.
  have short : (((fateOf before after key).toList.map (Difference.mk key)).filter
      fun d => !d.isQuiet).length ≤ 1 := by
    refine (List.length_filter_le _ _).trans ?_
    cases fateOf before after key <;> simp
  generalize ((fateOf before after key).toList.map (Difference.mk key)).filter
    (fun d => !d.isQuiet) = listed at shuffled short
  match listed with
  | [] => exact shuffled.eq_nil
  | [d] => exact shuffled.eq_singleton

theorem countP_differences (asked : Difference → Prop) [DecidablePred asked] :
    (compare beforeName afterName before after).differences.countP (fun d => asked d)
      = ((everything before after).filter fun d => !d.isQuiet).countP fun d => asked d :=
  (differences_perm beforeName afterName before after).countP_eq _

/-- What is asked of listed differences only is counted in everything. -/
theorem countP_differences_eq {asked : Difference → Prop} [DecidablePred asked]
    (loud : ∀ d, asked d → d.isQuiet = false) :
    (compare beforeName afterName before after).differences.countP (fun d => asked d)
      = (everything before after).countP fun d => asked d := by
  rw [countP_differences, List.countP_filter]
  refine List.countP_congr fun d _ => ?_
  have loud := loud d
  grind

theorem unchanged_eq (beforeOrdered : before.Ordered) (afterOrdered : after.Ordered) :
    (compare beforeName afterName before after).summary.unchanged
      = ((common before after).filter (OnBoth before after Difference.Unmoved)).card := by
  rw [← countP_changed beforeOrdered afterOrdered]
  refine (accounts_tally before after).unchanged.trans (List.countP_congr fun d _ => ?_)
  rw [Difference.isQuiet_iff, decide_eq_true_iff]
  exact ⟨fun unmoved => ⟨unmoved.status_eq, unmoved⟩, And.right⟩

theorem unchanged_add_changed (beforeOrdered : before.Ordered) (afterOrdered : after.Ordered) :
    (compare beforeName afterName before after).summary.unchanged
        + (compare beforeName afterName before after).differences.countP
            (fun d => d.status = "changed")
      = (common before after).card := by
  have every : (common before after).filter (OnBoth before after fun _ => True)
      = common before after := by
    refine Finset.filter_true_of_mem fun key member => ?_
    obtain ⟨old, new, earlier, later⟩ := mem_common.1 member
    exact ⟨old, earlier, new, later, trivial⟩
  rw [countP_differences, ← every, ← countP_changed beforeOrdered afterOrdered,
    List.countP_filter]
  have quiet : (compare beforeName afterName before after).summary.unchanged
      = (everything before after).countP Difference.isQuiet := (accounts_tally before after).unchanged
  -- What is quiet is on both sides, so the changed ones split into quiet and listed ones.
  rw [quiet, List.countP_eq_countP_filter_add (everything before after)
    (fun d => d.status = "changed" ∧ True) Difference.isQuiet, List.countP_filter,
    List.countP_filter]
  congr 1
  · refine List.countP_congr fun d _ => ?_
    have quiet := d.isQuiet_iff
    grind [Difference.Unmoved.status_eq]
  · simp

theorem totals (before after : Table Snapshot) :
    let c := compare beforeName afterName before after
    c.summary.added = c.differences.countP (fun d => d.status = "added") ∧
      c.summary.removed = c.differences.countP (fun d => d.status = "removed") ∧
      c.summary.stressed = c.differences.countP (fun d => d.verdict? = some .stressed) ∧
      c.summary.improved = c.differences.countP (fun d => d.verdict? = some .improved) := by
  have accounts := accounts_tally before after
  refine ⟨accounts.added.trans (countP_differences_eq _ _ fun d happened => ?_).symm,
    accounts.removed.trans (countP_differences_eq _ _ fun d happened => ?_).symm,
    accounts.stressed.trans (countP_differences_eq _ _ fun d happened => ?_).symm,
    accounts.improved.trans (countP_differences_eq _ _ fun d happened => ?_).symm⟩
  · exact d.isQuiet_eq_false (.inl (by simp [happened]))
  · exact d.isQuiet_eq_false (.inl (by simp [happened]))
  · exact d.isQuiet_eq_false (.inr (by simp [happened]))
  · exact d.isQuiet_eq_false (.inr (by simp [happened]))

end Compare

/-- A comparison accounts for every key of either side exactly once: it lists a key of one side as
    added or removed, and a key of both sides as changed unless it only counts it, which it does
    when nothing moved.  The totals agree with what is listed. -/
theorem compare_accounts_for_every_key (beforeName afterName : String) (before after : Table Snapshot)
    (beforeOrdered : before.Ordered) (afterOrdered : after.Ordered) :
    let c := compare beforeName afterName before after
    (∀ key, c.differences.filter (fun d => d.key = key) =
      match before.find? key, after.find? key with
      | none, none => []
      | none, some new => [⟨key, .added new⟩]
      | some old, none => [⟨key, .removed old⟩]
      | some old, some new =>
        if Difference.Unmoved ⟨key, .changed old new⟩ then [] else [⟨key, .changed old new⟩]) ∧
    (c.summary.unchanged
        = ((common before after).filter (OnBoth before after Difference.Unmoved)).card ∧
      c.summary.unchanged + c.differences.countP (fun d => d.status = "changed")
        = (common before after).card) ∧
    (c.summary.added = c.differences.countP (fun d => d.status = "added") ∧
      c.summary.removed = c.differences.countP (fun d => d.status = "removed") ∧
      c.summary.stressed = c.differences.countP (fun d => d.verdict? = some .stressed) ∧
      c.summary.improved = c.differences.countP (fun d => d.verdict? = some .improved)) ∧
    (c.hasStressed = true ↔ ∃ d ∈ c.differences, d.verdict? = some .stressed) := by
  intro c
  refine ⟨fun key => ?_, ⟨unchanged_eq _ _ beforeOrdered afterOrdered,
    unchanged_add_changed _ _ beforeOrdered afterOrdered⟩, totals _ _ before after, ?_⟩
  · rw [filter_differences _ _ beforeOrdered afterOrdered, fateOf]
    cases before.find? key with
    | none =>
      cases after.find? key with
      | none => rfl
      | some new => rfl
    | some old =>
      cases after.find? key with
      | none => rfl
      | some new =>
        by_cases unmoved : Difference.Unmoved ⟨key, .changed old new⟩
        · simp [Difference.isQuiet_iff.2 unmoved, unmoved]
        · simp [mt Difference.isQuiet_iff.1 unmoved, unmoved]
  · rw [hasStressed, decide_eq_true_iff, (totals _ _ before after).2.2.1, List.countP_pos_iff]
    simp only [decide_eq_true_eq]
    rfl

namespace Sample

def snapshot (name : String) (complexity : Nat) (archetypes : List Archetype) : Snapshot :=
  ⟨name, name, "a.js", "a", 1, complexity, 0, 0, 0, 1, archetypes⟩

def before : Table Snapshot :=
  [("drop", snapshot "drop" 1 []), ("grow", snapshot "grow" 1 []),
    ("hide", snapshot "hide" 1 []), ("stay", snapshot "stay" 4 [.boss])]

def after : Table Snapshot :=
  [("grow", snapshot "grow" 4 []), ("hide", snapshot "hide" 1 [.hermit]),
    ("make", snapshot "make" 1 []), ("stay", snapshot "stay" 5 [.boss])]

theorem before_ordered : before.Ordered := by
  rw [Table.Ordered]
  decide

theorem after_ordered : after.Ordered := by
  rw [Table.Ordered]
  decide

/-- Of three routines on both sides, one grew, one is neutral and became a hermit, and one, though
    its complexity moved, is only counted. -/
theorem compare_accounts_for_every_key_sample :
    let c := compare "HEAD~1" "HEAD" before after
    (before.Ordered ∧ after.Ordered) ∧
    (c.differences.filter (fun d => d.key = "hide")
        = [⟨"hide", .changed (snapshot "hide" 1 []) (snapshot "hide" 1 [.hermit])⟩] ∧
      c.differences.filter (fun d => d.key = "stay") = [] ∧
      c.differences.filter (fun d => d.key = "drop") = [⟨"drop", .removed (snapshot "drop" 1 [])⟩]) ∧
    c.summary.unchanged = 1 ∧ c.differences.countP (fun d => d.status = "changed") = 2 := by
  intro c
  obtain ⟨entries, ⟨unchanged, total⟩, -⟩ :=
    compare_accounts_for_every_key "HEAD~1" "HEAD" before after before_ordered after_ordered
  have one : c.summary.unchanged = 1 := unchanged.trans (by decide)
  have three : c.summary.unchanged + c.differences.countP (fun d => d.status = "changed") = 3 :=
    total.trans (by decide)
  exact ⟨⟨before_ordered, after_ordered⟩,
    ⟨(entries "hide").trans (by decide), (entries "stay").trans (by decide),
      (entries "drop").trans (by decide)⟩, one, by omega⟩

end Sample

end Comparison

end LoadBearing
