import Mathlib.Data.List.GetD
import LoadBearing.Stats
import LoadBearing.Proofs.Percentages
import LoadBearing.Proofs.UndirectedView

/-! # Percentiles are order statistics

The total order of doubles tells any two of them apart, so a sample has one sorted form and a summary,
which is made from that form alone, does not depend on the order of the sample.  A percentile is found
at a rank of the sorted form.  What this means is said without sorting (`AtRank`): by how many members
are below it, and how many are not above it.
-/

namespace LoadBearing

/-! ## The total order -/

theorem Decimal.wordKey_injective : Function.Injective wordKey := by
  intro word other same
  have range : bitRange 63 = 2 ^ 63 := rfl
  have words : word.toNat = other.toNat := by
    simp only [wordKey, range] at same
    split at same <;> split at same <;> omega
  exact UInt64.toNat_inj.1 words

theorem DoubleForm.key_injective {α : Type} (form : DoubleForm α) :
    Function.Injective form.key :=
  fun x y same => form.eq_of_bits x y (Decimal.wordKey_injective same)

/-! ## Ranks -/

/-- A member of a sample that stands at a rank in the order of keys: no more members than that are
    below it, and more than that are not above it. -/
structure AtRank {α : Type} (key : α → Int) (values : List α) (rank : Nat) (x : α) : Prop where
  mem : x ∈ values
  below : values.countP (fun y => key y < key x) ≤ rank
  upto : rank < values.countP (fun y => key y ≤ key x)

section Ranks

variable {α : Type} {key : α → Int} {values others sorted : List α} {rank higher : Nat} {x y : α}

theorem AtRank.perm (ranked : AtRank key values rank x) (shuffled : values.Perm others) :
    AtRank key others rank x where
  mem := shuffled.mem_iff.1 ranked.mem
  below := (shuffled.countP_eq _).symm.trans_le ranked.below
  upto := ranked.upto.trans_eq (shuffled.countP_eq _)

/-- Who stands at a higher rank is not below. -/
theorem AtRank.key_le (ranked : AtRank key values rank x) (above : AtRank key values higher y)
    (ranks : rank ≤ higher) : key x ≤ key y := by
  by_contra less
  have fewer : values.countP (fun z => key z ≤ key y) ≤ values.countP (fun z => key z < key x) :=
    List.countP_mono_left fun z _ notAbove => by
      simp only [decide_eq_true_eq] at notAbove ⊢
      omega
  have := ranked.below
  have := above.upto
  omega

theorem key_getElem_le (inOrder : sorted.Pairwise fun x y => key x ≤ key y) {i j : Nat}
    (ranks : i ≤ j) (within : j < sorted.length) : key sorted[i] ≤ key sorted[j] := by
  rcases ranks.eq_or_lt with rfl | less
  · rfl
  · exact List.pairwise_iff_getElem.1 inOrder i j _ within less

theorem atRank_getElem (inOrder : sorted.Pairwise fun x y => key x ≤ key y)
    (within : rank < sorted.length) : AtRank key sorted rank sorted[rank] := by
  refine ⟨List.getElem_mem within, ?_, ?_⟩
  · -- Nobody from the rank on is below it.
    have nobody : (sorted.drop rank).countP (fun y => key y < key sorted[rank]) = 0 := by
      rw [List.countP_eq_zero]
      intro y member
      obtain ⟨j, bound, rfl⟩ := List.mem_drop_iff_getElem.1 member
      simpa using key_getElem_le inOrder (Nat.le_add_right rank j) (by omega)
    generalize key sorted[rank] = level at nobody ⊢
    rw [← List.take_append_drop rank sorted, List.countP_append, nobody, Nat.add_zero]
    exact List.countP_le_length.trans (List.length_take_le rank sorted)
  · -- Nobody up to the rank is above it.
    have everybody : (sorted.take (rank + 1)).countP (fun y => key y ≤ key sorted[rank])
        = rank + 1 := by
      rw [List.countP_eq_length.2, List.length_take, Nat.min_eq_left within]
      intro y member
      obtain ⟨i, bound, rfl⟩ := List.mem_take_iff_getElem.1 member
      simpa using key_getElem_le inOrder (by omega : i ≤ rank) within
    have fewer := (List.take_sublist (rank + 1) sorted).countP_le
      (p := fun y => key y ≤ key sorted[rank])
    omega

end Ranks

/-! ## Summaries -/

namespace Summary

variable {α : Type} (form : DoubleForm α) {values others : List α}

theorem pairwise_ordered (values : List α) :
    (ordered form values).Pairwise fun x y => form.key x ≤ form.key y := by
  have decides : ∀ x y, form.le x y = true ↔ form.key x ≤ form.key y := fun _ _ =>
    decide_eq_true_iff
  have unordered : values.Pairwise fun _ _ => True := List.pairwise_of_forall fun _ _ => trivial
  exact (pairwise_mergeSort_stable decides unordered).imp fun less => less.elim le_of_lt (·.1.le)

/-- The order of a sample leaves no trace, as keys tell all members apart. -/
theorem ordered_eq_of_perm (shuffled : values.Perm others) :
    ordered form values = ordered form others := by
  have rearranged : (ordered form values).Perm (ordered form others) :=
    (List.mergeSort_perm values _).trans (shuffled.trans (List.mergeSort_perm others _).symm)
  exact rearranged.eq_of_pairwise
    (fun x y _ _ below above => form.key_injective (le_antisymm below above))
    (pairwise_ordered form values) (pairwise_ordered form others)

theorem of_eq_of_perm (shuffled : values.Perm others) : of form values = of form others := by
  rw [of, of, ordered_eq_of_perm form shuffled, shuffled.isEmpty_eq]

theorem atRank_getD (zero : α) {rank : Nat} (within : rank < values.length) :
    AtRank form.key values rank ((ordered form values).getD rank zero) := by
  have same : (ordered form values).length = values.length := List.length_mergeSort values
  rw [List.getD_eq_getElem _ _ (same ▸ within)]
  exact (atRank_getElem (pairwise_ordered form values) _).perm (List.mergeSort_perm values _)

/-- A percentile: the double that the size of a sample is multiplied with, the number of hundredths
    that is meant, and where it stands in a summary. -/
structure Percentile (α : Type) where
  share : Float
  percent : Nat
  read : Summary α → α

def percentiles : List (Percentile α) :=
  [⟨0.50, 50, p50⟩, ⟨0.75, 75, p75⟩, ⟨0.85, 85, p85⟩, ⟨0.90, 90, p90⟩, ⟨0.95, 95, p95⟩]

theorem isPercent_of_mem {p : Percentile α} (listed : p ∈ percentiles) :
    Double.IsPercent p.share p.percent ∧ p.percent ≤ 100 := by
  obtain ⟨p50, p75, p85, p90, p95⟩ := Double.isPercent_literals
  simp only [percentiles, List.mem_cons, List.not_mem_nil, or_false] at listed
  rcases listed with rfl | rfl | rfl | rfl | rfl
  · exact ⟨p50, by norm_num⟩
  · exact ⟨p75, by norm_num⟩
  · exact ⟨p85, by norm_num⟩
  · exact ⟨p90, by norm_num⟩
  · exact ⟨p95, by norm_num⟩

/-- The rank of a percentile is exact, and it is one of the sample. -/
theorem place_eq {p : Percentile α} (listed : p ∈ percentiles) {count : Nat} (some : 0 < count)
    (few : count < 2 ^ 32) :
    place p.share count = p.percent * (count - 1) / 100 ∧
      p.percent * (count - 1) / 100 ≤ count - 1 := by
  obtain ⟨isPercent, atMost⟩ := isPercent_of_mem listed
  refine ⟨Double.toUInt64_share isPercent atMost (by omega), ?_⟩
  calc p.percent * (count - 1) / 100 ≤ 100 * (count - 1) / 100 :=
        Nat.div_le_div_right (Nat.mul_le_mul_right _ atMost)
    _ = count - 1 := by omega

theorem atRank_read {p : Percentile α} (listed : p ∈ percentiles) (some : values ≠ []) :
    AtRank form.key values (rank p.share values.length) (p.read (of form values)) := by
  have positive := List.length_pos_iff.2 some
  have read : p.read (of form values) = percentile form (ordered form values) p.share := by
    rw [of, if_neg (by simpa using some)]
    simp only [percentiles, List.mem_cons, List.not_mem_nil, or_false] at listed
    rcases listed with rfl | rfl | rfl | rfl | rfl <;> rfl
  rw [read, percentile, ordered, List.length_mergeSort]
  exact atRank_getD form _ (by rw [rank]; omega)

theorem atRank_max (some : values ≠ []) :
    AtRank form.key values (values.length - 1) (of form values).max := by
  have positive := List.length_pos_iff.2 some
  have same : (ordered form values).length = values.length := List.length_mergeSort values
  have last : (of form values).max = (ordered form values).getD (values.length - 1) form.zero := by
    rw [of, if_neg (by simpa using some)]
    show (ordered form values).getLastD form.zero = _
    rw [List.getLastD_eq_getLast?, List.getLast?_eq_getElem?, List.getD_eq_getElem?_getD, same]
  rw [last]
  exact atRank_getD form _ (by omega)

end Summary

/-! ## Profiles -/

namespace CallGraph

variable {routines others : List Routine} {calls otherCalls : List Call}

theorem metrics?_eq_of_perm (unique : (routines.map Routine.id).Nodup)
    (shuffled : routines.Perm others) (callsShuffled : calls.Perm otherCalls) :
    (ofParts routines calls).metrics? = (ofParts others otherCalls).metrics? := by
  have fanOut (id : String) : (ofParts routines calls).fanOut id
      = (ofParts others otherCalls).fanOut id := by
    rw [fanOut_ofParts, fanOut_ofParts, callsShuffled.countP_eq]
  have crossFanOut (id : String) : (ofParts routines calls).crossFanOut id
      = (ofParts others otherCalls).crossFanOut id := by
    rw [CallGraph.crossFanOut, CallGraph.crossFanOut, callsFrom_ofParts, callsFrom_ofParts,
      (callsShuffled.filter _).countP_eq]
  funext id
  rw [metrics?, metrics?, routine?_ofParts, routine?_ofParts, find?_id_eq_of_perm unique shuffled]
  simp only [crossRatio, fanOut, crossFanOut, fanIn_ofParts, callsShuffled.countP_eq]

theorem profile_eq_of_perm (unique : (routines.map Routine.id).Nodup)
    (shuffled : routines.Perm others) (callsShuffled : calls.Perm otherCalls) :
    Profile.of (ofParts routines calls) = Profile.of (ofParts others otherCalls) := by
  have measured : (routines.filterMap fun r => (ofParts routines calls).metrics? r.id).Perm
      (others.filterMap fun r => (ofParts others otherCalls).metrics? r.id) := by
    rw [metrics?_eq_of_perm unique shuffled callsShuffled]
    exact shuffled.filterMap _
  have each (metric : Metrics → Float) := Summary.of_eq_of_perm .native (measured.map metric)
  simp only [Profile.of, Distribution.ofValues]
  congr 1 <;> exact each _

end CallGraph

/-! ## Order statistics -/

namespace Summary

variable {α : Type}

/-- A summary depends on the members of a sample and not on their order.  Its percentiles are the
    members at the exact ranks in the total order, none of which is out of range, and they increase
    up to the greatest member.  Hence the profile of a call graph does not depend on the order of
    its routines, nor on that of its calls. -/
theorem of_gives_order_statistics (form : DoubleForm α) (values : List α) (some : values ≠ [])
    (few : values.length < 2 ^ 32) :
    (∀ others, values.Perm others → of form others = of form values) ∧
    (∀ p ∈ percentiles,
      place p.share values.length = p.percent * (values.length - 1) / 100 ∧
      p.percent * (values.length - 1) / 100 < values.length ∧
      AtRank form.key values (p.percent * (values.length - 1) / 100) (p.read (of form values))) ∧
    AtRank form.key values (values.length - 1) (of form values).max ∧
    (form.key (of form values).p50 ≤ form.key (of form values).p75 ∧
      form.key (of form values).p75 ≤ form.key (of form values).p85 ∧
      form.key (of form values).p85 ≤ form.key (of form values).p90 ∧
      form.key (of form values).p90 ≤ form.key (of form values).p95 ∧
      form.key (of form values).p95 ≤ form.key (of form values).max) ∧
    ∀ (routines others : List Routine) (calls otherCalls : List Call),
      (routines.map Routine.id).Nodup → routines.Perm others → calls.Perm otherCalls →
      Profile.of (.ofParts routines calls) = Profile.of (.ofParts others otherCalls) := by
  have positive := List.length_pos_iff.2 some
  have exact (p : Percentile α) (listed : p ∈ percentiles) :
      AtRank form.key values (p.percent * (values.length - 1) / 100) (p.read (of form values)) := by
    obtain ⟨place, within⟩ := place_eq listed positive few
    have ranked := atRank_read form listed some
    rwa [rank, place, Nat.min_eq_left within] at ranked
  have greatest := atRank_max form some
  have increase (p q : Percentile α) (listed : p ∈ percentiles) (others : q ∈ percentiles)
      (lower : p.percent ≤ q.percent) :
      form.key (p.read (of form values)) ≤ form.key (q.read (of form values)) :=
    (exact p listed).key_le (exact q others)
      (Nat.div_le_div_right (Nat.mul_le_mul_right _ lower))
  refine ⟨fun others shuffled => (of_eq_of_perm form shuffled).symm, fun p listed => ?_, greatest,
    ⟨?_, ?_, ?_, ?_, ?_⟩, fun routines others calls otherCalls => CallGraph.profile_eq_of_perm⟩
  · obtain ⟨place, within⟩ := place_eq listed positive few
    exact ⟨place, by omega, exact p listed⟩
  · exact increase ⟨0.50, 50, p50⟩ ⟨0.75, 75, p75⟩ (by simp [percentiles]) (by simp [percentiles])
      (by norm_num)
  · exact increase ⟨0.75, 75, p75⟩ ⟨0.85, 85, p85⟩ (by simp [percentiles]) (by simp [percentiles])
      (by norm_num)
  · exact increase ⟨0.85, 85, p85⟩ ⟨0.90, 90, p90⟩ (by simp [percentiles]) (by simp [percentiles])
      (by norm_num)
  · exact increase ⟨0.90, 90, p90⟩ ⟨0.95, 95, p95⟩ (by simp [percentiles]) (by simp [percentiles])
      (by norm_num)
  · have listed : (⟨0.95, 95, p95⟩ : Percentile α) ∈ percentiles := by simp [percentiles]
    exact (exact _ listed).key_le greatest (place_eq listed positive few).2

namespace Sample

/-- Words of bits, which tell apart also the values that are no numbers. -/
def words : DoubleForm UInt64 where
  bits := id
  eq_of_bits := fun _ _ same => same
  number := Float.ofBits
  zero := 0

/-- One, both zeros, and two values that are no numbers, of different signs. -/
def mixed : List UInt64 :=
  [0x7FF8000000000000, 0, 0x8000000000000000, 0xFFF8000000000000, 0x3FF0000000000000]

def mixedOrdered : List UInt64 :=
  [0xFFF8000000000000, 0x8000000000000000, 0, 0x3FF0000000000000, 0x7FF8000000000000]

theorem median_mixed : (of words mixed).p50 = 0 := by
  have sorted : ordered words mixed = mixedOrdered :=
    (ordered_eq_of_perm words (by decide : mixed.Perm mixedOrdered)).trans
      (List.mergeSort_of_pairwise (by decide))
  show percentile words (ordered words mixed) 0.50 = 0
  rw [sorted]
  rfl

end Sample

open Sample ClusterSearch.Sample in
theorem of_gives_order_statistics_mixed :
    (mixed ≠ [] ∧ mixed.length < 2 ^ 32 ∧ (of words mixed).p50 = 0) ∧
    of words mixedOrdered = of words mixed ∧
    (place 0.50 mixed.length = 2 ∧ AtRank words.key mixed 2 (of words mixed).p50) ∧
    AtRank words.key mixed 4 (of words mixed).max ∧
    words.key (of words mixed).p95 ≤ words.key (of words mixed).max ∧
    Profile.of (.ofParts trio chain) = Profile.of (.ofParts trio.reverse chain.reverse) := by
  have some : mixed ≠ [] := by decide
  have few : mixed.length < 2 ^ 32 := by decide
  obtain ⟨unordered, ranks, greatest, ⟨-, -, -, -, below⟩, profile⟩ :=
    of_gives_order_statistics words mixed some few
  obtain ⟨place, -, ranked⟩ := ranks ⟨0.50, 50, p50⟩ (by simp [percentiles])
  exact ⟨⟨some, few, median_mixed⟩, unordered _ (by decide), ⟨place, ranked⟩, greatest, below,
    profile _ _ _ _ (by decide) (List.reverse_perm trio).symm (List.reverse_perm chain).symm⟩

end Summary

end LoadBearing
