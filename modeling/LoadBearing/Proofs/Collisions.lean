import Mathlib.Data.List.Perm.Subperm
import LoadBearing.Proofs.Integrity

/-! # How identities are kept apart

A definition asks for its plain identity.  As long as the text is taken, the line is appended to it.
The texts that are tried grow, so they are different members of what is taken: a definition needs no
more rounds than definitions came before it.

`Given` says this of a whole series of definitions.  Naming file after file gives such a series,
since only the members of what is taken count and not their order.
-/

namespace LoadBearing.CallGraph

/-! ## Rounds -/

/-- An identity with its line appended so many times. -/
def withLines (id : String) (line rounds : Nat) : String :=
  id ++ String.join (List.replicate rounds ("@L" ++ toString line))

@[simp] theorem withLines_zero (id : String) (line : Nat) : withLines id line 0 = id := by
  simp [withLines]

theorem withLines_succ (id : String) (line rounds : Nat) :
    withLines id line (rounds + 1) = withLines (withLine id line) line rounds := by
  rw [withLines, withLines, withLine, List.replicate_succ, String.join_cons]
  simp only [String.append_assoc]

theorem length_withLines (id : String) (line rounds : Nat) :
    (withLines id line rounds).length = id.length + rounds * ("@L" ++ toString line).length := by
  induction rounds generalizing id with
  | zero => simp
  | succ rounds ih =>
    rw [withLines_succ, ih, withLine, String.append_assoc, String.length_append, Nat.succ_mul]
    omega

theorem withLines_injective (id : String) (line : Nat) :
    Function.Injective (withLines id line) := by
  intro one other same
  have lengths := congrArg String.length same
  rw [length_withLines, length_withLines, Nat.add_left_cancel_iff] at lengths
  refine Nat.eq_of_mul_eq_mul_right ?_ lengths
  rw [String.length_append]
  exact Nat.add_pos_left (by decide) _

/-- The search for a free identity ends after so many rounds, and not before. -/
structure Settles (taken : List String) (id : String) (line rounds : Nat) : Prop where
  blocked : ∀ fewer < rounds, withLines id line fewer ∈ taken
  free : withLines id line rounds ∉ taken

namespace Settles

variable {taken others : List String} {id : String} {line rounds : Nat}

/-- Each round but the last used up another taken identity. -/
theorem rounds_le (settles : Settles taken id line rounds) : rounds ≤ taken.length := by
  let tried := (List.range rounds).map (withLines id line)
  have distinct : tried.Nodup := List.nodup_range.map (withLines_injective id line)
  have among : tried ⊆ taken := by
    intro text member
    obtain ⟨fewer, isFewer, rfl⟩ := List.mem_map.1 member
    exact settles.blocked fewer (List.mem_range.1 isFewer)
  calc rounds = tried.length := by rw [List.length_map, List.length_range]
    _ ≤ taken.length := (List.subperm_of_subset distinct among).length_le

theorem congr (settles : Settles taken id line rounds)
    (same : ∀ text, text ∈ taken ↔ text ∈ others) :
    Settles others id line rounds :=
  ⟨fun fewer isFewer => (same _).1 (settles.blocked fewer isFewer),
    fun isTaken => settles.free ((same _).2 isTaken)⟩

end Settles

theorem exists_settles_freshId (taken : List String) (line : Nat) (id : String) :
    ∃ rounds, freshId taken line id = withLines id line rounds ∧ Settles taken id line rounds := by
  fun_induction freshId taken line id with
  | case1 id isTaken ih =>
    obtain ⟨rounds, same, blocked, free⟩ := ih
    rw [← withLines_succ] at same free
    refine ⟨rounds + 1, same, fun fewer isFewer => ?_, free⟩
    cases fewer with
    | zero => simpa using isTaken
    | succ fewer =>
      rw [withLines_succ]
      exact blocked fewer (Nat.lt_of_succ_lt_succ isFewer)
  | case2 id isFree =>
    exact ⟨0, by simp, fun _ isFewer => absurd isFewer (Nat.not_lt_zero _), by simpa using isFree⟩

/-! ## Series of definitions -/

def declared (outlines : List Outline) : List (String × Definition) :=
  outlines.flatMap fun o => o.definitions.map (o.file, ·)

/-- Identities for a series of definitions, each with as many rounds as those before it make
    necessary. -/
inductive Given : List String → List (String × Definition) → List String → Prop where
  | nil (taken : List String) : Given taken [] []
  | cons {taken : List String} {file : String} {d : Definition} {rounds : Nat}
      {rest : List (String × Definition)} {ids : List String} :
      Settles taken (plainId file d) d.line rounds →
      Given (withLines (plainId file d) d.line rounds :: taken) rest ids →
      Given taken ((file, d) :: rest) (withLines (plainId file d) d.line rounds :: ids)

namespace Given

variable {taken others ids more : List String} {entries later : List (String × Definition)}

theorem congr (given : Given taken entries ids) (same : ∀ text, text ∈ taken ↔ text ∈ others) :
    Given others entries ids := by
  induction given generalizing others with
  | nil => exact .nil others
  | cons settles _ ih =>
    exact .cons (settles.congr same) (ih fun text => by simp only [List.mem_cons, same text])

theorem append (given : Given taken entries ids) (next : Given (ids ++ taken) later more) :
    Given taken (entries ++ later) (ids ++ more) := by
  induction given with
  | nil => exact next
  | cons settles _ ih =>
    refine .cons settles (ih (next.congr fun text => ?_))
    simp only [List.cons_append, List.mem_cons, List.mem_append]
    tauto

theorem length_eq (given : Given taken entries ids) : ids.length = entries.length := by
  induction given with
  | nil => rfl
  | cons _ _ ih => rw [List.length_cons, List.length_cons, ih]

theorem getElem? (given : Given taken entries ids) {position : Nat} {file : String}
    {d : Definition} (declared : entries[position]? = some (file, d)) :
    ∃ rounds, ids[position]? = some (withLines (plainId file d) d.line rounds) ∧
      Settles (ids.take position ++ taken) (plainId file d) d.line rounds := by
  induction given generalizing position with
  | nil => cases declared
  | cons settles _ ih =>
    cases position with
    | zero =>
      cases declared
      exact ⟨_, rfl, settles⟩
    | succ position =>
      obtain ⟨rounds, found, settles⟩ := ih declared
      refine ⟨rounds, found, settles.congr fun text => ?_⟩
      simp only [List.take_succ_cons, List.cons_append, List.mem_cons, List.mem_append]
      tauto

end Given

theorem given_nameAll (file : String) (taken : List String) (definitions : List Definition) :
    Given taken (definitions.map (file, ·)) (nameAll file taken definitions) := by
  induction definitions generalizing taken with
  | nil => exact .nil taken
  | cons d rest ih =>
    obtain ⟨rounds, same, settles⟩ := exists_settles_freshId taken d.line (plainId file d)
    rw [nameAll, same]
    exact .cons settles (ih _)

theorem given_nameFiles (taken : List String) (outlines : List Outline) :
    Given taken (declared outlines) ((nameFiles taken outlines).flatMap (·.ids)) := by
  induction outlines generalizing taken with
  | nil => exact .nil taken
  | cons outline rest ih =>
    rw [nameFiles, declared, List.flatMap_cons, List.flatMap_cons]
    exact (given_nameAll outline.file taken outline.definitions).append (ih _)

/-! ## The routines of a built graph -/

theorem routines_nameFiles (taken : List String) (outlines : List Outline) :
    (nameFiles taken outlines).flatMap NamedOutline.routines
      = List.zipWith (fun id entry => Routine.ofDefinition id entry.1 entry.2)
          ((nameFiles taken outlines).flatMap (·.ids)) (declared outlines) := by
  induction outlines generalizing taken with
  | nil => rfl
  | cons outline rest ih =>
    rw [nameFiles, declared, List.flatMap_cons, List.flatMap_cons, List.flatMap_cons,
      List.zipWith_append (by simp), ih, NamedOutline.routines, List.zipWith_map_right]
    rfl

theorem declared_sortByFile_perm (outlines : List Outline) :
    (declared (Outline.sortByFile outlines)).Perm (declared outlines) :=
  (List.mergeSort_perm outlines _).flatMap_right _

theorem map_snd_declared (outlines : List Outline) :
    (declared outlines).map Prod.snd = outlines.flatMap (·.definitions) := by
  simp [declared, List.map_flatMap, Function.comp_def]

/-- An identity of a built graph leads to the routine of the definition that it was given to. -/
theorem routine?_build {outlines : List Outline} {position : Nat} {id file : String}
    {d : Definition}
    (isDeclared : (declared (Outline.sortByFile outlines))[position]? = some (file, d))
    (isId : ((build outlines).routines.map Routine.id)[position]? = some id) :
    (build outlines).routine? id = some (Routine.ofDefinition id file d) := by
  rw [map_id_build] at isId
  have member : Routine.ofDefinition id file d ∈ (build outlines).routines := by
    refine List.mem_of_getElem? (i := position) ?_
    show ((nameFiles [] (Outline.sortByFile outlines)).flatMap NamedOutline.routines)[position]? = _
    rw [routines_nameFiles, List.getElem?_zipWith, isId, isDeclared]
  show (ofParts _ _).routine? id = _
  rw [routine?_ofParts]
  exact find?_id_of_mem (nodup_ids_build outlines) member

/-- Whatever names and files the outlines have, every definition gets an identity of its own: file
    and qualified name, followed by its line as often as identities given before make necessary,
    which is at most once for each definition before it.  The identity leads to the routine of that
    definition. -/
theorem build_gives_own_identities (outlines : List Outline) :
    let graph := build outlines
    let ids := graph.routines.map Routine.id
    let entries := declared (Outline.sortByFile outlines)
    entries.Perm (declared outlines) ∧
    (ids.Nodup ∧ ids.length = (outlines.flatMap (·.definitions)).length) ∧
    ∀ position file d, entries[position]? = some (file, d) → ∃ rounds ≤ position, ∃ id,
      id = file ++ "::" ++ d.qualified ++ String.join (List.replicate rounds s!"@L{d.line}") ∧
      ids[position]? = some id ∧
      Settles (ids.take position) (file ++ "::" ++ d.qualified) d.line rounds ∧
      graph.routine? id = some (Routine.ofDefinition id file d) := by
  intro graph ids entries
  have shuffled : entries.Perm (declared outlines) := declared_sortByFile_perm outlines
  have given : Given [] entries ids := by
    show Given [] _ (List.map _ _)
    rw [map_id_build]
    exact given_nameFiles [] _
  have total : ids.length = (outlines.flatMap (·.definitions)).length := by
    rw [given.length_eq, shuffled.length_eq, ← map_snd_declared, List.length_map]
  refine ⟨shuffled, ⟨nodup_ids_build outlines, total⟩, ?_⟩
  intro position file d isDeclared
  obtain ⟨rounds, found, settles⟩ := given.getElem? isDeclared
  rw [List.append_nil] at settles
  refine ⟨rounds, ?_, _, rfl, found, settles, routine?_build isDeclared found⟩
  calc rounds ≤ (ids.take position).length := settles.rounds_le
    _ ≤ position := List.length_take_le _ _

namespace Collisions.Sample

def function (name : String) : Definition := .spanning name .function 1 1

/-- A file given twice with functions on one line, one of which imitates a lengthened identity, and
    a path that imitates a name in another file. -/
def outlines : List Outline :=
  [ { file := "a.js", definitions := [function "f", function "f", function "f@L1"] },
    { file := "a.js", definitions := [function "f", function "g::h"] },
    { file := "a.js::g", definitions := [function "h"] } ]

theorem sortByFile_outlines : Outline.sortByFile outlines = outlines :=
  List.mergeSort_of_pairwise (by decide +kernel)

theorem ids_build : (build outlines).routines.map Routine.id
    = ["a.js::f", "a.js::f@L1", "a.js::f@L1@L1", "a.js::f@L1@L1@L1", "a.js::g::h",
        "a.js::g::h@L1"] := by
  rw [map_id_build, sortByFile_outlines]
  decide +kernel

end Collisions.Sample

open Collisions.Sample in
theorem build_gives_own_identities_imitated :
    (declared (Outline.sortByFile outlines))[3]? = some ("a.js", function "f") ∧
    (∃ rounds ≤ 3, Settles ["a.js::f", "a.js::f@L1", "a.js::f@L1@L1"] "a.js::f" 1 rounds) ∧
    (build outlines).routine? "a.js::f@L1@L1@L1"
      = some (Routine.ofDefinition "a.js::f@L1@L1@L1" "a.js" (function "f")) := by
  have isDeclared : (declared (Outline.sortByFile outlines))[3]? = some ("a.js", function "f") := by
    rw [sortByFile_outlines]
    rfl
  obtain ⟨rounds, few, id, -, found, settles, routine⟩ :=
    (build_gives_own_identities outlines).2.2 3 "a.js" (function "f") isDeclared
  rw [ids_build] at found settles
  obtain rfl := Option.some.inj found
  exact ⟨isDeclared, ⟨rounds, few, settles⟩, routine⟩

end LoadBearing.CallGraph
