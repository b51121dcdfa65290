import LoadBearing.CallGraph.Build
import LoadBearing.Proofs.Table

/-! # Identities are unique

Every definition of every file gets an identity of its own, so the identities of a built graph can
be used as references: each leads to one routine, whichever index is asked.
-/

namespace LoadBearing.CallGraph

/-! ## Naming -/

theorem freshId_not_mem (taken : List String) (line : Nat) (id : String) :
    freshId taken line id ∉ taken := by
  fun_induction freshId taken line id with
  | case1 id isTaken ih => exact ih
  | case2 id isFree => exact isFree

@[simp] theorem length_nameAll (file : String) (taken : List String)
    (definitions : List Definition) :
    (nameAll file taken definitions).length = definitions.length := by
  induction definitions generalizing taken with
  | nil => rfl
  | cons d rest ih => simp [nameAll, ih]

theorem nodup_nameAll (file : String) (taken : List String) (definitions : List Definition) :
    (nameAll file taken definitions).Nodup ∧
      ∀ id ∈ nameAll file taken definitions, id ∉ taken := by
  induction definitions generalizing taken with
  | nil => simp [nameAll]
  | cons d rest ih =>
    rw [nameAll]
    obtain ⟨nodup, apart⟩ := ih (freshId taken d.line (plainId file d) :: taken)
    constructor
    · refine List.nodup_cons.2 ⟨fun member => ?_, nodup⟩
      exact apart _ member List.mem_cons_self
    · intro id member
      rcases List.mem_cons.1 member with rfl | later
      · exact freshId_not_mem taken d.line (plainId file d)
      · exact fun isTaken => apart id later (List.mem_cons_of_mem _ isTaken)

theorem map_outline_nameFiles (taken : List String) (outlines : List Outline) :
    (nameFiles taken outlines).map (·.outline) = outlines := by
  induction outlines generalizing taken with
  | nil => rfl
  | cons outline rest ih => simp [nameFiles, ih]

theorem length_ids {taken : List String} {outlines : List Outline} {n : NamedOutline}
    (member : n ∈ nameFiles taken outlines) : n.ids.length = n.outline.definitions.length := by
  induction outlines generalizing taken with
  | nil => cases member
  | cons outline rest ih =>
    rw [nameFiles] at member
    rcases List.mem_cons.1 member with rfl | later
    · exact length_nameAll _ _ _
    · exact ih later

theorem nodup_nameFiles (taken : List String) (outlines : List Outline) :
    ((nameFiles taken outlines).flatMap (·.ids)).Nodup ∧
      ∀ id ∈ (nameFiles taken outlines).flatMap (·.ids), id ∉ taken := by
  induction outlines generalizing taken with
  | nil => simp [nameFiles]
  | cons outline rest ih =>
    rw [nameFiles, List.flatMap_cons]
    obtain ⟨nodupHere, apartHere⟩ := nodup_nameAll outline.file taken outline.definitions
    obtain ⟨nodupLater, apartLater⟩ :=
      ih (nameAll outline.file taken outline.definitions ++ taken)
    constructor
    · refine List.nodup_append'.2 ⟨nodupHere, nodupLater, fun id here later => ?_⟩
      exact apartLater id later (List.mem_append_left _ here)
    · intro id member
      rcases List.mem_append.1 member with here | later
      · exact apartHere id here
      · exact fun isTaken => apartLater id later (List.mem_append_right _ isTaken)

theorem map_id_routines {n : NamedOutline} (named : n.ids.length = n.outline.definitions.length) :
    n.routines.map Routine.id = n.ids := by
  apply List.ext_getElem
  · simp [NamedOutline.routines, named]
  · intro position _ _
    simp [NamedOutline.routines, Routine.ofDefinition]

/-! ## Looking up -/

variable {routines : List Routine}

/-- The index of identities holds the position that a scan finds first. -/
theorem find?_indexRoutines (routines : List Routine) (id : String) :
    (indexRoutines routines).find? id = routines.findIdx? fun r => r.id = id := by
  -- The loop is generalised to start at any position and with any index.
  suffices general : ∀ (first : Nat) (index : Table Nat), index.Ordered →
      ((routines.zipIdx first).foldl (fun index entry => index.insertNew entry.1.id entry.2)
          index).find? id
        = (index.find? id).or ((routines.findIdx? fun r => r.id = id).map (· + first)) by
    simpa [indexRoutines] using general 0 [] Table.ordered_nil
  induction routines with
  | nil => simp
  | cons r rest ih =>
    intro first index ordered
    rw [List.zipIdx_cons, List.foldl_cons, ih (first + 1) _ (ordered.insertNew r.id first),
      Table.find?_insertNew ordered, List.findIdx?_cons]
    by_cases same : id = r.id
    · subst same
      cases found : index.find? r.id <;> simp
    · have different : ¬ r.id = id := fun equal => same equal.symm
      simp only [if_neg same, decide_eq_true_eq, if_neg different, Option.map_map]
      congr 2
      funext position
      simp only [Function.comp_apply]
      omega

theorem find?_eq_getElem?_findIdx? (routines : List Routine) (p : Routine → Bool) :
    (routines.findIdx? p).bind (routines[·]?) = routines.find? p := by
  induction routines with
  | nil => rfl
  | cons r rest ih =>
    rw [List.findIdx?_cons, List.find?_cons]
    cases p r with
    | true => simp
    | false => simpa [Option.bind_map] using ih

theorem routine?_ofParts (routines : List Routine) (calls : List Call) (id : String) :
    (ofParts routines calls).routine? id = routines.find? fun r => r.id = id := by
  rw [← find?_eq_getElem?_findIdx?, ← find?_indexRoutines]
  rfl

theorem find?_id_of_mem (unique : (routines.map Routine.id).Nodup) {r : Routine}
    (member : r ∈ routines) : (routines.find? fun other => other.id = r.id) = some r := by
  induction routines with
  | nil => cases member
  | cons first rest ih =>
    obtain ⟨fresh, uniqueRest⟩ := List.nodup_cons.1 unique
    rcases List.mem_cons.1 member with rfl | later
    · simp
    · have different : ¬ first.id = r.id := by
        intro same
        exact fresh (same ▸ List.mem_map_of_mem later)
      rw [List.find?_cons_of_neg (by simpa using different)]
      exact ih uniqueRest later

theorem home?_of_mem (unique : (routines.map Routine.id).Nodup) {r : Routine}
    (member : r ∈ routines) (calls : List Call) :
    (ofParts routines calls).home? r.id = some r.home := by
  rw [home?, routine?_ofParts, find?_id_of_mem unique member]
  rfl

private theorem find?_foldl_home (table : Table String) {id : String}
    (absent : id ∉ routines.map Routine.id) :
    (routines.foldl (fun table r => table.insert r.id r.home) table).find? id = table.find? id := by
  induction routines generalizing table with
  | nil => rfl
  | cons first rest ih =>
    rw [List.map_cons, List.mem_cons, not_or] at absent
    rw [List.foldl_cons, ih _ absent.2, Table.find?_insert, if_neg absent.1]

/-- The table of modules agrees with the graph on every routine. -/
theorem find?_homes (unique : (routines.map Routine.id).Nodup) {r : Routine}
    (member : r ∈ routines) : (homes routines).find? r.id = some r.home := by
  rw [homes]
  generalize ([] : Table String) = table
  induction routines generalizing table with
  | nil => cases member
  | cons first rest ih =>
    obtain ⟨fresh, uniqueRest⟩ := List.nodup_cons.1 unique
    rw [List.foldl_cons]
    rcases List.mem_cons.1 member with rfl | later
    · rw [find?_foldl_home _ fresh, Table.find?_insert, if_pos rfl]
    · exact ih uniqueRest later _

end LoadBearing.CallGraph
