import Mathlib.Data.List.Nodup
import Mathlib.Data.Prod.Lex
import LoadBearing.Decimal.Binary
import LoadBearing.Proofs.Table

/-! # Sorted lists

Sorting by a rank keeps equally ranked elements in their old order.  A list that was in some order
before is therefore in that order wherever the ranks do not decide.
-/

namespace LoadBearing

section Stable

variable {α β : Type} [LinearOrder β] {le : α → α → Bool} {rank : α → β} {rel : α → α → Prop}

theorem zipIdxLE_iff {left right : α × Nat} :
    List.zipIdxLE le left right = true ↔
      le left.1 right.1 = true ∧ (le right.1 left.1 = true → left.2 ≤ right.2) := by
  simp only [List.zipIdxLE]
  by_cases below : le left.1 right.1 = true
  · by_cases above : le right.1 left.1 = true
    · simp [below, above]
    · simp [below, above]
  · simp [below]

theorem pairwise_mergeSort_stable
    (decides : ∀ left right, le left right = true ↔ rank left ≤ rank right) {items : List α}
    (ordered : items.Pairwise rel) :
    (items.mergeSort le).Pairwise fun left right =>
      rank left < rank right ∨ rank left = rank right ∧ rel left right := by
  have trans : ∀ one two three, le one two = true → le two three = true → le one three = true := by
    simp only [decides]
    exact fun one two three => le_trans
  have total : ∀ one two, (le one two || le two one) = true := by
    simp only [Bool.or_eq_true, decides]
    exact fun one two => le_total _ _
  rw [← List.mergeSort_zipIdx, List.pairwise_map]
  have sorted := List.pairwise_mergeSort (List.zipIdxLE_trans trans) (List.zipIdxLE_total total)
    items.zipIdx
  have apart : (items.zipIdx.mergeSort (List.zipIdxLE le)).Pairwise
      fun left right => left.2 ≠ right.2 := by
    rw [← List.pairwise_map (R := (· ≠ ·))]
    refine ((List.mergeSort_perm _ _).map Prod.snd).nodup_iff.2 ?_
    rw [List.zipIdx_map_snd]
    exact List.nodup_range'
  refine (sorted.and apart).imp_of_mem ?_
  rintro ⟨left, i⟩ ⟨right, j⟩ leftMember rightMember ⟨below, different⟩
  obtain ⟨below, tie⟩ := zipIdxLE_iff.1 below
  rcases ((decides left right).1 below).lt_or_eq with less | equal
  · exact .inl less
  · -- Positions tell equally ranked elements apart, and the list was in order by position.
    have earlier : i < j := lt_of_le_of_ne (tie ((decides right left).2 equal.ge)) different
    obtain ⟨-, leftBound, leftAt⟩ := List.mem_zipIdx (List.mem_mergeSort.1 leftMember)
    obtain ⟨-, rightBound, rightAt⟩ := List.mem_zipIdx (List.mem_mergeSort.1 rightMember)
    refine .inr ⟨equal, ?_⟩
    show rel left right
    rw [leftAt, rightAt]
    exact List.pairwise_iff_getElem.1 ordered _ _ _ _ (by omega)

end Stable

/-! ## Scores and names -/

/-- A place in a list of the highest scores, where equal ones are told apart by name. -/
def standing (score : Float) (name : String) : ℤᵒᵈ ×ₗ String :=
  toLex (OrderDual.toDual (Decimal.orderKey score), name)

theorem standing_le_iff {score otherScore : Float} {name otherName : String} :
    (if Decimal.orderKey score = Decimal.orderKey otherScore then textLe name otherName
      else Decimal.le otherScore score) = true ↔
      standing score name ≤ standing otherScore otherName := by
  rw [standing, standing, Prod.Lex.toLex_le_toLex, OrderDual.toDual_lt_toDual,
    OrderDual.toDual_inj]
  by_cases equal : Decimal.orderKey score = Decimal.orderKey otherScore
  · simp [equal, textLe_iff]
  · simp only [equal, if_false, Decimal.le, decide_eq_true_eq, false_and, or_false]
    exact ⟨fun below => lt_of_le_of_ne below (Ne.symm equal), le_of_lt⟩

end LoadBearing
