import Mathlib.Data.List.Dedup
import LoadBearing.Analysis
import LoadBearing.Proofs.Marks
import LoadBearing.Proofs.Table

/-! # Keys of snapshots

Routines at one place are told apart by a number, and the number becomes a part of the key.  The pairs
of a place and a number that are handed out are all different (`nodup_tickets`), but two of them may
be written as the same key: a name can end in a mark and a number of its own.  `keyOf_eq_iff` says
that this is the only way, so a table of snapshots is complete just if no place is spelled like a
numbered key of another place with so many routines.
-/

namespace LoadBearing

/-! ## How much a table keeps of a list -/

namespace Table

variable {α : Type}

theorem mem_keys_ofList {entries : List (String × α)} {key : String} :
    key ∈ keys (ofList entries) ↔ key ∈ entries.map Prod.fst := by
  suffices general : ∀ table : Table α,
      key ∈ keys (entries.foldl (fun table entry => table.insert entry.1 entry.2) table)
        ↔ key ∈ keys table ∨ key ∈ entries.map Prod.fst by
    simpa [ofList] using general []
  induction entries with
  | nil => simp
  | cons entry rest ih =>
    intro table
    rw [List.foldl_cons, ih, insert, mem_keys_update, List.map_cons, List.mem_cons]
    tauto

theorem length_ofList (entries : List (String × α)) :
    (ofList entries).length = (entries.map Prod.fst).dedup.length := by
  have nodup : (keys (ofList entries)).Nodup := (ordered_ofList entries).imp ne_of_lt
  have same : (keys (ofList entries)).Perm (entries.map Prod.fst).dedup := by
    rw [List.perm_ext_iff_of_nodup nodup (List.nodup_dedup _)]
    intro key
    rw [mem_keys_ofList, List.mem_dedup]
  rw [← same.length_eq, keys, List.length_map]

/-- A table is shorter than the list it is made of just if two entries have one key. -/
theorem length_ofList_eq_iff (entries : List (String × α)) :
    (ofList entries).length = entries.length ↔ (entries.map Prod.fst).Nodup := by
  rw [length_ofList, ← List.dedup_eq_self]
  constructor
  · intro full
    apply (List.dedup_sublist _).eq_of_length
    rw [full, List.length_map]
  · intro distinct
    rw [distinct, List.length_map]

theorem mem_of_mem_ofList {entries : List (String × α)} {entry : String × α}
    (member : entry ∈ ofList entries) : entry ∈ entries := by
  have stored : ∀ key value, find? (ofList entries) key = some value → (key, value) ∈ entries := by
    rw [ofList]
    refine List.foldlRecOn (motive := fun table : Table α =>
      ∀ key value, find? table key = some value → (key, value) ∈ entries) entries _ (by simp) ?_
    intro table known other among key value found
    rw [find?_insert] at found
    split at found
    next same =>
      cases found
      exact same ▸ among
    next => exact known key value found
  exact stored _ _ ((ordered_ofList entries).find?_of_mem member)

end Table

namespace Snapshot

/-! ## Numbers -/

/-- The place and the number of each routine, after `count` routines at each place. -/
def tickets (count : String → Nat) : List Routine → List (String × Nat)
  | [] => []
  | r :: rest =>
    (r.place, count r.place + 1) :: tickets (Function.update count r.place (count r.place + 1)) rest

theorem mem_tickets {count : String → Nat} {routines : List Routine} {place : String}
    {number : Nat} :
    (place, number) ∈ tickets count routines ↔
      count place < number ∧ number ≤ count place + routines.countP (fun r => r.place = place) := by
  induction routines generalizing count with
  | nil =>
    simp only [tickets, List.not_mem_nil, List.countP_nil, false_iff]
    omega
  | cons r rest ih =>
    rw [tickets, List.mem_cons, ih, List.countP_cons, Prod.mk.injEq]
    by_cases here : r.place = place
    · subst here
      simp only [Function.update_self, decide_true, if_true, true_and]
      omega
    · simp [here, Ne.symm here]

theorem nodup_tickets (count : String → Nat) (routines : List Routine) :
    (tickets count routines).Nodup := by
  induction routines generalizing count with
  | nil => exact List.nodup_nil
  | cons r rest ih =>
    rw [tickets]
    refine List.nodup_cons.2 ⟨fun later => ?_, ih _⟩
    -- What comes later at the place has a larger number.
    rw [mem_tickets, Function.update_self] at later
    omega

theorem keyOf_eq_iff {place other : String} {number bound : Nat} (positive : 1 ≤ number)
    (otherPositive : 1 ≤ bound) :
    keyOf place number = keyOf other bound ↔
      (place = other ∧ number = bound) ∨
      (number = 1 ∧ 2 ≤ bound ∧ place = keyOf other bound) ∨
      (bound = 1 ∧ 2 ≤ number ∧ other = keyOf place number) := by
  by_cases first : number = 1 <;> by_cases second : bound = 1
  · simp [keyOf, first, second]
  · simp [keyOf, first, second, Ne.symm second]
    omega
  · simp [keyOf, first, second, eq_comm]
    omega
  · -- Both numbers are written, and can be read back.
    simp only [first, second, false_and, or_false]
    constructor
    · intro same
      have characters := congrArg String.toList same
      simp only [keyOf, first, second, if_false, String.toList_append, List.append_assoc]
        at characters
      obtain ⟨places, numbers⟩ := Text.append_number_inj (by decide) characters
      exact ⟨String.toList_inj.1 places, numbers⟩
    · rintro ⟨rfl, rfl⟩
      rfl

/-! ## Clashes -/

/-- A routine stands at a place that is spelled like a numbered key of another place, where there
    are so many routines. -/
def Clashes (routines : List Routine) : Prop :=
  ∃ place number, 2 ≤ number ∧ number ≤ routines.countP (fun r => r.place = place) ∧
    ∃ r ∈ routines, r.place = keyOf place number

theorem nodup_keyOf_tickets_iff (routines : List Routine) :
    ((tickets (fun _ => 0) routines).map fun ticket => keyOf ticket.1 ticket.2).Nodup ↔
      ¬ Clashes routines := by
  rw [List.nodup_map_iff_inj_on (nodup_tickets _ _)]
  constructor
  · rintro apart ⟨place, number, two, enough, r, member, spelled⟩
    have one : 1 ≤ routines.countP (fun other => other.place = r.place) :=
      List.countP_pos_iff.2 ⟨r, member, by simp⟩
    have same := apart (r.place, 1) (mem_tickets.2 (by omega)) (place, number)
      (mem_tickets.2 (by omega)) spelled
    have numbers : 1 = number := congrArg Prod.snd same
    omega
  · rintro apart ⟨place, number⟩ first ⟨other, bound⟩ second same
    rw [mem_tickets, Nat.zero_add] at first second
    rcases (keyOf_eq_iff first.1 second.1).1 same with ⟨rfl, rfl⟩ | ⟨rfl, two, spelled⟩ |
      ⟨rfl, two, spelled⟩
    · rfl
    · obtain ⟨r, member, stands⟩ := List.countP_pos_iff.1 first.2
      refine absurd ⟨other, bound, two, second.2, r, member, ?_⟩ apart
      rw [← spelled]
      simpa using stands
    · obtain ⟨r, member, stands⟩ := List.countP_pos_iff.1 second.2
      refine absurd ⟨place, number, two, first.2, r, member, ?_⟩ apart
      rw [← spelled]
      simpa using stands

/-! ## Collecting -/

section Collect

variable (g : CallGraph) (archetypes : String → List Archetype)

theorem map_key_collect {seen : Table Nat} (ordered : seen.Ordered) (routines : List Routine) :
    (collect g archetypes seen routines).map Snapshot.key
      = (tickets (fun place => (seen.find? place).getD 0) routines).map
          fun ticket => keyOf ticket.1 ticket.2 := by
  induction routines generalizing seen with
  | nil => rfl
  | cons r rest ih =>
    simp only [collect, tickets, List.map_cons, Snapshot.of, Table.find?_update_self ordered,
      Option.getD_some]
    rw [ih (ordered.update _ _)]
    congr 3
    funext place
    by_cases here : place = r.place
    · simp [here, Table.find?_update_self ordered]
    · simp [here, Table.find?_update_ne here]

theorem map_id_collect (seen : Table Nat) (routines : List Routine) :
    (collect g archetypes seen routines).map Snapshot.id = routines.map Routine.id := by
  induction routines generalizing seen with
  | nil => rfl
  | cons r rest ih => simp [collect, Snapshot.of, ih]

end Collect

end Snapshot

namespace Report

open Snapshot

/-! ## Snapshots of a report -/

/-- The snapshots in the order of the routines, before they are put into a table. -/
def snapshotList (r : Report) : List Snapshot :=
  collect r.graph (fun id => (r.findingsAbout id).map Finding.archetype) [] r.graph.routines

variable (r : Report)

theorem snapshots_eq : r.snapshots = Table.ofList (r.snapshotList.map fun s => (s.key, s)) := rfl

theorem map_id_snapshotList : r.snapshotList.map Snapshot.id = r.graph.routines.map Routine.id :=
  map_id_collect _ _ _ _

theorem nodup_keys_snapshotList_iff :
    ((r.snapshotList.map fun s => (s.key, s)).map Prod.fst).Nodup ↔ ¬ Clashes r.graph.routines := by
  have keys : (r.snapshotList.map fun s => (s.key, s)).map Prod.fst
      = r.snapshotList.map Snapshot.key := by simp
  rw [keys, snapshotList, map_key_collect _ _ Table.ordered_nil, ← nodup_keyOf_tickets_iff]
  rfl

theorem key_of_mem_snapshots {entry : String × Snapshot} (member : entry ∈ r.snapshots) :
    entry.2.key = entry.1 := by
  rw [snapshots_eq] at member
  obtain ⟨s, -, rfl⟩ := List.mem_map.1 (Table.mem_of_mem_ofList member)
  rfl

theorem length_snapshots_eq_iff :
    r.snapshots.length = r.graph.routines.length ↔ ¬ Clashes r.graph.routines := by
  have size : r.snapshotList.length = r.graph.routines.length := by
    simpa using congrArg List.length r.map_id_snapshotList
  rw [← nodup_keys_snapshotList_iff, ← Table.length_ofList_eq_iff, ← snapshots_eq, List.length_map,
    size]

theorem ids_snapshots_perm (apart : ¬ Clashes r.graph.routines) :
    (r.snapshots.map fun entry => entry.2.id).Perm (r.graph.routines.map Routine.id) := by
  have kept := Table.ofList_perm (r.nodup_keys_snapshotList_iff.2 apart)
  rw [← snapshots_eq] at kept
  have ids := kept.map fun entry => entry.2.id
  rw [List.map_map] at ids
  rw [← map_id_snapshotList]
  exact ids

/-- Every snapshot is kept under its own key.  There is one for each routine, with the identity of
    that routine, just if no place is spelled like a numbered key. -/
theorem snapshots_complete_iff :
    (r.snapshots.map fun entry => entry.2.key) = r.snapshots.keys ∧
    (r.snapshots.length = r.graph.routines.length ↔ ¬ Clashes r.graph.routines) ∧
    ((r.snapshots.map fun entry => entry.2.id).Perm (r.graph.routines.map Routine.id) ↔
      ¬ Clashes r.graph.routines) := by
  refine ⟨?_, r.length_snapshots_eq_iff, fun shuffled => ?_, r.ids_snapshots_perm⟩
  · apply List.map_congr_left
    intro entry member
    exact r.key_of_mem_snapshots member
  · apply r.length_snapshots_eq_iff.1
    simpa using shuffled.length_eq

namespace Sample

/-- A file with two functions of one name, and a third one named like the key of the second. -/
def outline : Outline where
  file := "a.js"
  definitions := [.spanning "f" .function 1 1, .spanning "f" .function 2 2,
    .spanning "f#2" .method 3 3]

theorem routines_build : (CallGraph.build [outline]).routines
    = ["a.js::f", "a.js::f@L2", "a.js::f#2"].zipWith
        (fun id d => Routine.ofDefinition id "a.js" d) outline.definitions := by
  have free : ∀ taken line id, id ∉ taken → CallGraph.freshId taken line id = id := by
    intro taken line id absent
    rw [CallGraph.freshId, dif_neg absent]
  have second : CallGraph.freshId ["a.js::f"] 2 "a.js::f" = "a.js::f@L2" := by
    rw [CallGraph.freshId, dif_pos (by decide)]
    exact free _ _ _ (by decide)
  have named : CallGraph.nameFiles [] (Outline.sortByFile [outline])
      = [⟨outline, ["a.js::f", "a.js::f@L2", "a.js::f#2"]⟩] := by
    simp [Outline.sortByFile, CallGraph.nameFiles, CallGraph.nameAll, CallGraph.plainId, outline,
      Definition.spanning, Definition.qualified, qualify, free, second]
  rw [CallGraph.build, named]
  decide

end Sample

/-- The third function takes the key of the second, so three functions have fewer snapshots. -/
theorem snapshots_lose_a_routine :
    let r := build "/project" ⟨[Sample.outline], []⟩ none {}
    r.graph.routines.map Routine.id = ["a.js::f", "a.js::f@L2", "a.js::f#2"] ∧
      r.snapshots.length ≠ r.graph.routines.length := by
  intro r
  have routines : r.graph.routines = _ := Sample.routines_build
  refine ⟨by rw [routines]; rfl, mt r.length_snapshots_eq_iff.1 ?_⟩
  rw [not_not, routines]
  exact ⟨"a.js::f", 2, by decide⟩

end Report

end LoadBearing
