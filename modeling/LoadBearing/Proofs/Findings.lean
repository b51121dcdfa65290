import LoadBearing.Proofs.Conservation
import LoadBearing.Proofs.DoubleOrder
import LoadBearing.Proofs.Sorting

/-! # Findings without some archetypes

Every detector looks at the evidence alone, so leaving some out takes away their findings and no
others.  What remains has to be in the order it had: findings are listed by confidence and then by
archetype, which is a strict order, and a strict order leaves one arrangement (`eq_of_precedes`).
-/

namespace LoadBearing

namespace Table

variable {α β : Type}

def mapValues (change : α → β) (table : Table α) : Table β :=
  table.map fun entry => (entry.1, change entry.2)

theorem insert_mapValues (change : α → β) (table : Table α) (key : String) (value : α) :
    insert (mapValues change table) key (change value)
      = mapValues change (insert table key value) := by
  induction table with
  | nil => rfl
  | cons entry rest ih =>
    simp only [insert, mapValues, List.map_cons, update] at ih ⊢
    split
    · rfl
    · split
      · rfl
      · rw [List.map_cons, ih]

theorem ofList_mapValues (change : α → β) (entries : List (String × α)) :
    ofList (mapValues change entries) = mapValues change (ofList entries) := by
  -- The induction is on the entries still to be stored, for every table that has the earlier ones.
  suffices general : ∀ table : Table α,
      (mapValues change entries).foldl (fun table entry => table.insert entry.1 entry.2)
          (mapValues change table)
        = mapValues change (entries.foldl (fun table entry => table.insert entry.1 entry.2) table) from
    general []
  induction entries with
  | nil => exact fun table => rfl
  | cons entry rest ih =>
    intro table
    have stored := ih (insert table entry.1 entry.2)
    rwa [← insert_mapValues] at stored

end Table

namespace Finding

/-! ## The order of findings -/

/-- A finding is listed before another: it is surer in the total order of doubles, or just as sure
    and of an earlier archetype. -/
def Precedes (f g : Finding) : Prop :=
  Decimal.orderKey g.confidence < Decimal.orderKey f.confidence ∨
    Decimal.orderKey f.confidence = Decimal.orderKey g.confidence ∧
      Archetype.all.idxOf f.archetype < Archetype.all.idxOf g.archetype

theorem Precedes.asymm {f g : Finding} (first : Precedes f g) : ¬ Precedes g f := by
  rw [Precedes] at *
  omega

theorem eq_of_precedes {findings others : List Finding} (perm : findings.Perm others)
    (sorted : findings.Pairwise Precedes) (sortedOthers : others.Pairwise Precedes) :
    findings = others :=
  perm.eq_of_pairwise (fun _ _ _ _ forth back => absurd back forth.asymm) sorted sortedOthers

def found? (e : Evidence) (r : Routine) (a : Archetype) : Option Finding :=
  (a.detector e r).map (Finding.mk a)

theorem archetype_of_found? {e : Evidence} {r : Routine} {a : Archetype} {f : Finding}
    (found : found? e r a = some f) : f.archetype = a := by
  obtain ⟨detection, -, rfl⟩ := Option.map_eq_some_iff.1 found
  rfl

theorem about_perm (enabled : List Archetype) (e : Evidence) (r : Routine) :
    (about enabled e r).Perm (enabled.filterMap (found? e r)) :=
  List.mergeSort_perm _ _

theorem pairwise_about {enabled : List Archetype} (inOrder : enabled.Sublist Archetype.all)
    (e : Evidence) (r : Routine) : (about enabled e r).Pairwise Precedes := by
  have listed : Archetype.all.Pairwise fun a b =>
      Archetype.all.idxOf a < Archetype.all.idxOf b := by decide
  have found : (enabled.filterMap (found? e r)).Pairwise fun f g =>
      Archetype.all.idxOf f.archetype < Archetype.all.idxOf g.archetype := by
    refine List.pairwise_filterMap.2 ((listed.sublist inOrder).imp ?_)
    intro a b earlier f fromA g fromB
    rwa [archetype_of_found? fromA, archetype_of_found? fromB]
  have decides (f g : Finding) : le f g = true ↔
      OrderDual.toDual (Decimal.orderKey f.confidence)
        ≤ OrderDual.toDual (Decimal.orderKey g.confidence) := by
    rw [OrderDual.toDual_le_toDual, le, Decimal.le, decide_eq_true_iff]
  -- The sort looks at the confidence only; being stable, it leaves the order of the archetypes.
  refine (pairwise_mergeSort_stable decides found).imp ?_
  rintro f g (surer | ⟨alike, earlier⟩)
  · exact .inl surer
  · exact .inr ⟨alike, earlier⟩

theorem mem_about_iff {enabled : List Archetype} {e : Evidence} {r : Routine} {f : Finding} :
    f ∈ about enabled e r ↔ f.archetype ∈ enabled ∧ f.archetype.detector e r = some f.detection := by
  rw [(about_perm enabled e r).mem_iff, List.mem_filterMap]
  constructor
  · rintro ⟨a, member, found⟩
    obtain ⟨detection, detected, rfl⟩ := Option.map_eq_some_iff.1 found
    exact ⟨member, detected⟩
  · rintro ⟨member, detected⟩
    exact ⟨f.archetype, member, Option.map_eq_some_iff.2 ⟨f.detection, detected, rfl⟩⟩

/-! ## Disabled archetypes -/

def isEnabled (disabled : List Archetype) (f : Finding) : Bool :=
  f.archetype ∉ disabled

theorem filter_found? (disabled : List Archetype) (e : Evidence) (r : Routine) :
    (Archetype.enabled disabled).filterMap (found? e r)
      = (Archetype.all.filterMap (found? e r)).filter (isEnabled disabled) := by
  rw [Archetype.enabled, List.filterMap_filter, List.filter_filterMap]
  refine List.filterMap_congr fun a _ => ?_
  cases found : found? e r a with
  | none => simp
  | some f => simp [Option.filter, isEnabled, archetype_of_found? found]

theorem about_enabled (disabled : List Archetype) (e : Evidence) (r : Routine) :
    about (Archetype.enabled disabled) e r
      = (about Archetype.all e r).filter (isEnabled disabled) := by
  -- Sorting the findings that are left and leaving some out of the sorted ones are two arrangements
  -- of the same findings.
  have perm : (about (Archetype.enabled disabled) e r).Perm
      ((about Archetype.all e r).filter (isEnabled disabled)) := by
    refine (about_perm _ e r).trans ?_
    rw [filter_found?]
    exact ((about_perm _ e r).filter _).symm
  exact eq_of_precedes perm (pairwise_about List.filter_sublist e r)
    ((pairwise_about (List.Sublist.refl _) e r).filter _)

theorem all_enabled (disabled : List Archetype) (e : Evidence) :
    all (Archetype.enabled disabled) e
      = (all Archetype.all e).mapValues (List.filter (isEnabled disabled)) := by
  rw [all, all, ← Table.ofList_mapValues, Table.mapValues, List.map_map]
  simp only [about_enabled, Function.comp_def]

/-- Disabling archetypes removes their findings and changes nothing else, for one routine and in the
    table of all.  A list has what the other detectors say, each archetype once, the surer first in
    the total order and so as numbers, and just as sure ones in the order of the archetypes. -/
theorem disabled_archetypes_only_disappear (disabled : List Archetype) (e : Evidence) (r : Routine) :
    about (Archetype.enabled disabled) e r
      = (about Archetype.all e r).filter (fun f => f.archetype ∉ disabled) ∧
    all (Archetype.enabled disabled) e
      = (all Archetype.all e).mapValues (List.filter fun f => f.archetype ∉ disabled) ∧
    (∀ f, f ∈ about (Archetype.enabled disabled) e r ↔
      f.archetype ∉ disabled ∧ f.archetype.detector e r = some f.detection) ∧
    ((about (Archetype.enabled disabled) e r).map archetype).Nodup ∧
    (about (Archetype.enabled disabled) e r).Pairwise Precedes ∧
    (about (Archetype.enabled disabled) e r).Pairwise fun f g => ¬ f.confidence < g.confidence := by
  have sorted := pairwise_about (e := e) (r := r)
    (List.filter_sublist : (Archetype.enabled disabled).Sublist Archetype.all)
  refine ⟨about_enabled disabled e r, all_enabled disabled e, fun f => ?_,
    nodup_about disabled e r, sorted, sorted.imp fun first less => ?_⟩
  · have listed : f.archetype ∈ Archetype.all := by cases f.archetype <;> decide
    simp [mem_about_iff, Archetype.enabled, listed]
  · have keys := Double.orderKey_lt_of_lt less
    rw [Precedes] at first
    omega

end Finding

end LoadBearing
