import LoadBearing.Proofs.Comparison
import LoadBearing.Proofs.Severity
import LoadBearing.Proofs.Sorting

/-! # The order of a listing

The test by which differences are sorted leaves the keys to the order in which two scans met them.
Both scans go by key, and no group has members from both, so the listing is in the order of `place`,
which ends with the key.  That order is strict, and no other arrangement of the differences has it.

Severities are compared as doubles.  As long as one of two is below `2 ^ 52`, that is to compare the
exact numbers.
-/

namespace LoadBearing

namespace Difference

/-! ## Places -/

def severityKey (d : Difference) : ℤ :=
  Decimal.orderKey d.severity

section Places

variable {α : Type} [LinearOrder α] [Zero α]

/-- The rank of a difference in a listing: its group (stressed, new, improved, otherwise changed,
    removed); within the stressed ones its weight, the greater first; within the new ones whether
    it gained no concerning archetype. -/
def rank (weigh : Difference → α) (d : Difference) : ℕ ×ₗ αᵒᵈ ×ₗ Bool :=
  toLex (d.group, toLex (.toDual (if d.group = 0 then weigh d else 0),
    d.group = 1 && !d.gainedConcerning))

/-- The place of a difference in a listing: its rank and then its key. -/
def place (weigh : Difference → α) (d : Difference) : (ℕ ×ₗ αᵒᵈ ×ₗ Bool) ×ₗ String :=
  toLex (d.rank weigh, d.key)

variable {weigh : Difference → α} {left right : Difference}

theorem place_lt_iff :
    left.place weigh < right.place weigh ↔
      left.rank weigh < right.rank weigh ∨
        left.rank weigh = right.rank weigh ∧ left.key < right.key :=
  Prod.Lex.toLex_lt_toLex

theorem le_iff_rank_le : left.le right = true ↔ left.rank severityKey ≤ right.rank severityKey := by
  rw [rank, rank, Prod.Lex.toLex_le_toLex, Prod.Lex.toLex_le_toLex, le]
  by_cases same : left.group = right.group
  · rw [← same]
    by_cases stressed : left.group = 0
    · have test : Decimal.le right.severity left.severity
          = decide (right.severityKey ≤ left.severityKey) := rfl
      have weights : right.severityKey ≤ left.severityKey ↔
          right.severityKey < left.severityKey ∨ left.severityKey = right.severityKey := by omega
      simpa [stressed, test] using weights
    · by_cases added : left.group = 1
      · cases left.gainedConcerning <;> cases right.gainedConcerning <;> simp [added]
      · simp [stressed, added]
  · simp [same]

/-- Two weights that order two stressed differences alike place them alike. -/
theorem place_lt_congr {β : Type} [LinearOrder β] [Zero β] {other : Difference → β}
    (forth : left.group = 0 → right.group = 0 → (weigh left ≤ weigh right ↔ other left ≤ other right))
    (back : left.group = 0 → right.group = 0 → (weigh right ≤ weigh left ↔ other right ≤ other left)) :
    left.place weigh < right.place weigh ↔ left.place other < right.place other := by
  rw [place_lt_iff, place_lt_iff]
  simp only [rank, Prod.Lex.toLex_lt_toLex, EmbeddingLike.apply_eq_iff_eq, Prod.mk.injEq,
    OrderDual.toDual_lt_toDual]
  by_cases same : left.group = right.group
  · rw [← same]
    by_cases stressed : left.group = 0
    · have forth := forth stressed (same ▸ stressed)
      have back := back stressed (same ▸ stressed)
      simp only [stressed, if_true, lt_iff_not_ge, le_antisymm_iff, forth, back]
    · simp [stressed]
  · simp [same]

end Places

/-! ## Exact severities -/

def exactSeverity (d : Difference) : ℚ :=
  2 * |(d.delta.complexity : ℚ)| + |(d.delta.fanOut : ℚ)| + |(d.delta.crossFanOut : ℚ)|
    + |(d.delta.fanIn : ℚ)| / 2

theorem exactSeverity_eq (d : Difference) : d.exactSeverity = d.delta.halves / 2 := by
  have size (change : Int) : |(change : ℚ)| = change.natAbs := by
    rw [Nat.cast_natAbs, Int.cast_abs]
  simp only [exactSeverity, Delta.halves, size]
  push_cast
  ring

theorem severity_eq (d : Difference) : d.severity = d.delta.severity := by
  have none : ({} : Delta).severity = 0.0 := rfl
  obtain ⟨key, fate⟩ := d
  cases fate with
  | added new => exact none.symm
  | removed old => exact none.symm
  | changed old new => rfl

/-- Two severities are told apart: every change has a size among the words, and one of the two is
    below `2 ^ 52`. -/
def ToldApart (left right : Difference) : Prop :=
  left.delta.HasSizes ∧ right.delta.HasSizes ∧
    (left.exactSeverity < 2 ^ 52 ∨ right.exactSeverity < 2 ^ 52)

theorem exactSeverity_lt_iff {d : Difference} :
    d.exactSeverity < 2 ^ 52 ↔ d.delta.halves < 2 ^ 53 := by
  rw [exactSeverity_eq, div_lt_iff₀ two_pos, ← pow_succ]
  exact_mod_cast Iff.rfl

theorem ToldApart.symm {left right : Difference} (apart : ToldApart left right) :
    ToldApart right left :=
  ⟨apart.2.1, apart.1, apart.2.2.symm⟩

theorem ToldApart.le_iff {left right : Difference} (apart : ToldApart left right) :
    left.severityKey ≤ right.severityKey ↔ left.exactSeverity ≤ right.exactSeverity := by
  obtain ⟨leftSizes, rightSizes, small⟩ := apart
  rw [exactSeverity_lt_iff, exactSeverity_lt_iff] at small
  rw [severityKey, severityKey, severity_eq, severity_eq, (Delta.counts_severity leftSizes).orderKey_le_iff
    (Delta.counts_severity rightSizes) small, exactSeverity_eq, exactSeverity_eq,
    div_le_div_iff_of_pos_right two_pos, Nat.cast_le]

end Difference

/-! ## The listing -/

namespace Comparison

variable {before after : Table Snapshot}

theorem group_arrival (key : String) (new : Snapshot) : (arrival before key new).group ≠ 4 := by
  rw [Ne, (Difference.group_spec _).2.1, arrival]
  split <;> simp [Difference.status]

/-- The scans meet the members of each group by key. -/
theorem pairwise_everything (beforeOrdered : before.Ordered) (afterOrdered : after.Ordered) :
    (everything before after).Pairwise fun left right =>
      left.group = right.group → left.key < right.key := by
  have afterKeys := List.pairwise_map.1 afterOrdered
  have beforeKeys := List.pairwise_map.1 beforeOrdered
  rw [everything, arrivals, departures]
  refine List.pairwise_append.2 ⟨?_, ?_, ?_⟩
  · refine List.pairwise_map.2 (afterKeys.imp fun less _ => ?_)
    rwa [key_arrival, key_arrival]
  · refine List.pairwise_map.2 ((beforeKeys.filter _).imp ?_)
    exact fun less _ => less
  · -- Only what is gone is in the last group.
    intro left arrived right departed same
    obtain ⟨entry, -, rfl⟩ := List.mem_map.1 arrived
    obtain ⟨old, -, rfl⟩ := List.mem_map.1 departed
    exact absurd same (group_arrival _ _)

theorem pairwise_differences (beforeName afterName : String) (beforeOrdered : before.Ordered)
    (afterOrdered : after.Ordered) :
    (compare beforeName afterName before after).differences.Pairwise fun left right =>
      left.place Difference.severityKey < right.place Difference.severityKey := by
  have scanned := (pairwise_everything beforeOrdered afterOrdered).filter fun d => !d.isQuiet
  have decides := fun left right => @Difference.le_iff_rank_le left right
  rw [← (accounts_tally before after).listed] at scanned
  refine (pairwise_mergeSort_stable decides scanned).imp ?_
  rintro left right (less | ⟨same, keys⟩)
  · exact Difference.place_lt_iff.2 (.inl less)
  · have groups : left.group = right.group := congrArg (fun place => (ofLex place).1) same
    exact Difference.place_lt_iff.2 (.inr ⟨same, keys groups⟩)

theorem eq_differences_of_pairwise (beforeName afterName : String) (beforeOrdered : before.Ordered)
    (afterOrdered : after.Ordered) {other : List Difference}
    (perm : other.Perm (compare beforeName afterName before after).differences)
    (sorted : other.Pairwise fun left right =>
      left.place Difference.severityKey < right.place Difference.severityKey) :
    other = (compare beforeName afterName before after).differences := by
  have listed := pairwise_differences beforeName afterName beforeOrdered afterOrdered
  refine perm.eq_of_pairwise ?_ sorted listed
  exact fun left right _ _ forth back => absurd back forth.asymm

/-- A listing is strictly increasing by place, with severities as doubles, and no other arrangement
    of the same differences is.  Two of its differences are also in the order of their exact
    severities, unless both are stressed and too heavy to be told apart. -/
theorem differences_in_strict_order (beforeName afterName : String) (before after : Table Snapshot)
    (beforeOrdered : before.Ordered) (afterOrdered : after.Ordered) :
    let listed := (compare beforeName afterName before after).differences
    (listed.Pairwise fun left right =>
      left.place Difference.severityKey < right.place Difference.severityKey) ∧
    (∀ other : List Difference, other.Perm listed →
      (other.Pairwise fun left right =>
        left.place Difference.severityKey < right.place Difference.severityKey) →
      other = listed) ∧
    listed.Pairwise fun left right =>
      (left.verdict? = some .stressed → right.verdict? = some .stressed →
        left.ToldApart right) →
      left.place Difference.exactSeverity < right.place Difference.exactSeverity := by
  intro listed
  have sorted := pairwise_differences beforeName afterName beforeOrdered afterOrdered
  refine ⟨sorted, fun other perm => eq_differences_of_pairwise _ _ beforeOrdered afterOrdered perm,
    sorted.imp fun less apart => ?_⟩
  have apart := fun left right => apart ((Difference.group_spec _).2.2.1.1 left)
    ((Difference.group_spec _).2.2.1.1 right)
  exact (Difference.place_lt_congr (fun left right => (apart left right).le_iff)
    fun left right => (apart left right).symm.le_iff).1 less

namespace Sample

def called (name : String) (complexity fanIn : Nat) : Snapshot :=
  { snapshot name complexity [] with fanIn := fanIn }

def grown (name : String) (complexity fanIn : Nat) : Difference :=
  ⟨name, .changed (called name 0 0) (called name complexity fanIn)⟩

def light : Table Snapshot :=
  ["a", "b", "c"].map fun name => (name, called name 0 0)

/-- All three grow alike, and the second is called. -/
def heavier (complexity : Nat) : Table Snapshot :=
  [("a", called "a" complexity 0), ("b", called "b" complexity 1), ("c", called "c" complexity 0)]

theorem light_ordered : light.Ordered := by
  rw [Table.Ordered]
  decide

theorem heavier_ordered (complexity : Nat) : (heavier complexity).Ordered := by
  show ["a", "b", "c"].Pairwise (· < ·)
  decide

/-- Half a point puts the second routine first, and the key decides between the others. -/
theorem differences_in_strict_order_grown :
    (light.Ordered ∧ (heavier 3).Ordered) ∧
      (compare "HEAD~1" "HEAD" light (heavier 3)).differences
        = [grown "b" 3 1, grown "a" 3 0, grown "c" 3 0] := by
  obtain ⟨-, only, -⟩ :=
    differences_in_strict_order "HEAD~1" "HEAD" light (heavier 3) light_ordered (heavier_ordered 3)
  have listed : [grown "b" 3 1, grown "a" 3 0, grown "c" 3 0].Perm
      ((everything light (heavier 3)).filter fun d => !d.isQuiet) := by decide +kernel
  have sorted : [grown "b" 3 1, grown "a" 3 0, grown "c" 3 0].Pairwise fun left right =>
      left.place Difference.severityKey < right.place Difference.severityKey := by decide +kernel
  exact ⟨⟨light_ordered, heavier_ordered 3⟩,
    (only _ (listed.trans (differences_perm _ _ _ _).symm) sorted).symm⟩

/-- Half a point more than `2 ^ 52` is lost, so the heavier routine is listed after the first. -/
theorem heavier_routine_listed_second :
    (compare "HEAD~1" "HEAD" light (heavier (2 ^ 51))).differences
        = [grown "a" (2 ^ 51) 0, grown "b" (2 ^ 51) 1, grown "c" (2 ^ 51) 0] ∧
      (grown "a" (2 ^ 51) 0).exactSeverity < (grown "b" (2 ^ 51) 1).exactSeverity ∧
      ¬ (compare "HEAD~1" "HEAD" light (heavier (2 ^ 51))).differences.Pairwise fun left right =>
        left.place Difference.exactSeverity < right.place Difference.exactSeverity := by
  have listed : [grown "a" (2 ^ 51) 0, grown "b" (2 ^ 51) 1, grown "c" (2 ^ 51) 0].Perm
      ((everything light (heavier (2 ^ 51))).filter fun d => !d.isQuiet) := by decide +kernel
  have sorted : [grown "a" (2 ^ 51) 0, grown "b" (2 ^ 51) 1, grown "c" (2 ^ 51) 0].Pairwise
      fun left right =>
        left.place Difference.severityKey < right.place Difference.severityKey := by decide +kernel
  have listing := eq_differences_of_pairwise "HEAD~1" "HEAD" light_ordered
    (heavier_ordered (2 ^ 51)) (listed.trans (differences_perm _ _ _ _).symm) sorted
  rw [← listing]
  exact ⟨rfl, by decide +kernel, by decide +kernel⟩

end Sample

end Comparison

end LoadBearing
