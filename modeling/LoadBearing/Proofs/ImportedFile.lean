import LoadBearing.Proofs.AddedFile

/-! # Imports lead into the imported file

A call that is resolved through an import should end in the file that the import stands for.
Exports are looked up by one text for the file and the name, so this holds as long as no two files
of the project can spell the same text: one of the two paths would have to go on with a colon where
the other one ends.  Nothing is asked of the names of routines, of their owners or of the default
exports.
-/

namespace LoadBearing

namespace Scope

/-- A path that goes on with a colon where another path ends. -/
def Continues (file longer : String) : Prop :=
  (file ++ ":").toList <+: longer.toList

instance (file longer : String) : Decidable (Continues file longer) :=
  inferInstanceAs (Decidable (_ <+: _))

theorem eq_or_continues {file longer : String} {rest tail later : List Char}
    (path : longer.toList = file.toList ++ rest) (key : ':' :: tail = rest ++ later) :
    file = longer ∨ Continues file longer := by
  cases rest with
  | nil => exact .inl (String.toList_inj.1 (by simp [path]))
  | cons first rest =>
    simp only [List.cons_append, List.cons.injEq] at key
    exact .inr ⟨rest, by simp [path, ← key.1]⟩

/-- If two files spell one key, one path goes on where the other one ends. -/
theorem files_of_exportKey_eq {file other name otherName : String}
    (same : exportKey file name = exportKey other otherName) :
    file = other ∨ Continues file other ∨ Continues other file := by
  have spelled : file.toList ++ ':' :: ':' :: name.toList
      = other.toList ++ ':' :: ':' :: otherName.toList := by
    simpa [exportKey] using congrArg String.toList same
  -- The longer path takes at least the first colon of the shorter one's key.
  cases List.append_eq_append_iff.1 spelled with
  | inl longer =>
    obtain ⟨rest, path, tail⟩ := longer
    cases eq_or_continues path tail with
    | inl same => exact .inl same
    | inr continues => exact .inr (.inl continues)
  | inr longer =>
    obtain ⟨rest, path, tail⟩ := longer
    cases eq_or_continues path tail with
    | inl same => exact .inl same.symm
    | inr continues => exact .inr (.inr continues)

/-- What is exported is a routine whose own file spells the key with some name. -/
theorem exists_of_exported? {routines : List Routine} {defaults : Table String}
    (distinct : defaults.keys.Nodup)
    (homed : ∀ entry ∈ defaults, ∃ r ∈ routines, r.id = entry.2 ∧ r.file = entry.1)
    {file name id : String} (found : exported? routines defaults file name = some id) :
    ∃ r ∈ routines, r.id = id ∧ ∃ own, exportKey r.file own = exportKey file name := by
  cases Option.or_eq_some_iff.1 found with
  | inl bound =>
    obtain ⟨other, member, key⟩ := (default?_eq_some_iff distinct).1 bound
    obtain ⟨r, listed, sameId, sameFile⟩ := homed (other, id) member
    exact ⟨r, listed, sameId, "default", by rw [sameFile, key]⟩
  | inr claimed =>
    obtain ⟨r, first, sameId⟩ := Option.map_eq_some_iff.1 claimed.2
    have claims : Claims r (exportKey file name) := by simpa using List.find?_some first
    refine ⟨r, List.mem_of_find?_eq_some first, sameId, ?_⟩
    cases claims with
    | inl byName => exact ⟨r.name, byName⟩
    | inr qualified => exact ⟨r.qualified, qualified.2⟩

end Scope

namespace CallGraph

open Scope (Continues)

def importOf? (outline : Outline) (site : Site) : Rule → Option Import
  | .imported => outline.imports.find? site.name
  | .member => site.receiver.bind outline.imports.find?
  | .sameFile | .unique => none

/-- A call that ends in the file that its import stands for. -/
def LandsInImport (g : CallGraph) (files : List String) (outline : Outline) (site : Site)
    (c : Call) (rule : Rule) : Prop :=
  ∃ binding file target r, importOf? outline site rule = some binding ∧
    Scope.resolve? files binding.specifier outline.file = some file ∧
    c.target = some target ∧ g.routine? target = some r ∧ r.file = file

theorem find?_resolveImports (files : List String) (outline : Outline) (name : String) :
    (resolveImports files outline).find? name = (outline.imports.find? name).map fun binding =>
      { binding with file := Scope.resolve? files binding.specifier outline.file } := by
  rw [resolveImports]
  induction outline.imports with
  | nil => rfl
  | cons entry rest ih =>
    rw [List.map_cons, Table.find?_cons, Table.find?_cons, ih]
    by_cases same : name = entry.1 <;> simp [same]

section Named

variable {named : List NamedOutline} {files : List String} {outline : Outline} {site : Site}

/-- The default export of a file is a routine of the file. -/
theorem exists_routine_of_mem_defaultExports
    (ids : ∀ n ∈ named, n.ids.length = n.outline.definitions.length) {entry : String × String}
    (member : entry ∈ defaultExports named) :
    ∃ r ∈ named.flatMap NamedOutline.routines, r.id = entry.2 ∧ r.file = entry.1 := by
  obtain ⟨n, inNamed, sameFile, known⟩ := exists_of_mem_defaultExports member
  rw [← map_id_routines (ids n inNamed)] at known
  obtain ⟨r, inFile, sameId⟩ := List.mem_map.1 known
  exact ⟨r, List.mem_flatMap.2 ⟨n, inNamed, inFile⟩, sameId,
    (file_of_mem_routines inFile).trans sameFile⟩

/-- A rule that goes through an import looks up the file of the import. -/
theorem exported?_of_target {exports : String → String → Option String} {routines : List Routine}
    {rule : Rule} {id : String} (through : rule = .imported ∨ rule = .member)
    (met : Scope.Target exports routines
      ⟨outline.file, site.name, site.receiver, resolveImports files outline⟩ rule id) :
    ∃ binding file name, importOf? outline site rule = some binding ∧
      Scope.resolve? files binding.specifier outline.file = some file ∧
      exports file name = some id := by
  cases through with
  | inl isImport =>
    subst isImport
    obtain ⟨-, resolved, file, bound, -, located, exported⟩ := met
    simp only [find?_resolveImports] at bound
    obtain ⟨binding, found, rfl⟩ := Option.map_eq_some_iff.1 bound
    exact ⟨binding, file, _, found, located, exported⟩
  | inr isMember =>
    subst isMember
    obtain ⟨receiver, resolved, file, called, bound, -, located, exported⟩ := met
    simp only at called
    simp only [find?_resolveImports] at bound
    obtain ⟨binding, found, rfl⟩ := Option.map_eq_some_iff.1 bound
    exact ⟨binding, file, _, by simp [importOf?, called, found], located, exported⟩

/-- What a call resolves to through an import lies in a file whose path spells the same key. -/
theorem resolve?_through_import
    (unique : ((named.flatMap NamedOutline.routines).map Routine.id).Nodup)
    (ids : ∀ n ∈ named, n.ids.length = n.outline.definitions.length) (calls : List Call)
    {found : Scope.Resolution} (through : found.rule = .imported ∨ found.rule = .member)
    (resolved : (Scope.Symbols.build (named.flatMap NamedOutline.routines)
      (defaultExports named)).resolve?
        ⟨outline.file, site.name, site.receiver, resolveImports files outline⟩ = some found) :
    ∃ binding file r, importOf? outline site found.rule = some binding ∧
      Scope.resolve? files binding.specifier outline.file = some file ∧
      (ofParts (named.flatMap NamedOutline.routines) calls).routine? found.target = some r ∧
      r ∈ named.flatMap NamedOutline.routines ∧
      (r.file = file ∨ Continues r.file file ∨ Continues file r.file) := by
  have distinct : (defaultExports named).keys.Nodup := (ordered_defaultExports named).imp ne_of_lt
  have met := (Scope.Symbols.attempt?_build_iff distinct).1
    (Scope.Symbols.resolve?_eq_some_iff.1 resolved).2
  obtain ⟨binding, file, name, bound, located, exported⟩ := exported?_of_target through met
  obtain ⟨r, member, sameId, own, key⟩ := Scope.exists_of_exported? distinct
    (fun entry listed => exists_routine_of_mem_defaultExports ids listed) exported
  refine ⟨binding, file, r, bound, located, ?_, member, Scope.files_of_exportKey_eq key⟩
  rw [routine?_ofParts, ← sameId, find?_id_of_mem unique member]

end Named

theorem mem_files_nameFiles {outlines : List Outline} {file : String} :
    file ∈ (nameFiles [] (Outline.sortByFile outlines)).map (·.outline.file) ↔
      file ∈ outlines.map Outline.file := by
  have paths : (nameFiles [] (Outline.sortByFile outlines)).map (·.outline.file)
      = (Outline.sortByFile outlines).map Outline.file := by
    have same := congrArg (List.map Outline.file)
      (map_outline_nameFiles [] (Outline.sortByFile outlines))
    rwa [List.map_map] at same
  rw [paths]
  exact ((List.mergeSort_perm _ _).map Outline.file).mem_iff

/-- In a project in which no path goes on with a colon where another one ends, every call that is
    resolved through an import ends in the file that the import stands for.  The calls are in step
    with the sites inside definitions. -/
theorem build_imports_land_in_their_files (outlines : List Outline)
    (apart : ∀ one ∈ outlines, ∀ other ∈ outlines, ¬ Continues one.file other.file) :
    let g := build outlines
    List.Forall₂ (fun entry c => c.file = entry.1.outline.file ∧
        ∀ rule, c.rule = some rule → rule = .imported ∨ rule = .member →
          LandsInImport g (outlines.map Outline.file) entry.1.outline entry.2 c rule)
      (attributed (nameFiles [] (Outline.sortByFile outlines))) g.calls := by
  intro g
  let named := nameFiles [] (Outline.sortByFile outlines)
  have apartPaths : ∀ one ∈ named.map (·.outline.file), ∀ other ∈ named.map (·.outline.file),
      ¬ Continues one other := by
    intro one isOne other isOther
    obtain ⟨left, leftListed, rfl⟩ := List.mem_map.1 (mem_files_nameFiles.1 isOne)
    obtain ⟨right, rightListed, rfl⟩ := List.mem_map.1 (mem_files_nameFiles.1 isOther)
    exact apart left leftListed right rightListed
  refine forall₂_flatMap fun n member => ?_
  have ids := length_ids member
  refine forall₂_filterMap (fun site _ inside => ?_) fun site _ outside => ?_
  · have inside : site.caller < n.ids.length := by simpa [ids] using inside
    have source := List.getElem?_eq_getElem inside
    cases resolved : (Scope.Symbols.build g.routines (defaultExports named)).resolve?
        ⟨n.outline.file, site.name, site.receiver,
          resolveImports (named.map (·.outline.file)) n.outline⟩ with
    | none =>
      exact ⟨_, resolveSite?_of_none source resolved, rfl, fun rule isRule => nomatch isRule⟩
    | some found =>
      refine ⟨_, resolveSite?_of_some source resolved, rfl, ?_⟩
      intro rule isRule through
      cases isRule
      obtain ⟨binding, file, r, bound, located, isTarget, listed, spelled⟩ :=
        resolve?_through_import (nodup_ids_build outlines) (fun _ => length_ids) g.calls through
          resolved
      have inProject := mem_of_resolve? located
      have ownFile : r.file ∈ named.map (·.outline.file) := by
        obtain ⟨home, isHome, inHome⟩ := List.mem_flatMap.1 listed
        rw [file_of_mem_routines inHome]
        exact List.mem_map_of_mem isHome
      refine ⟨binding, file, found.target, r, bound, ?_, rfl, isTarget, ?_⟩
      · rw [Scope.resolve?_congr fun path => mem_files_nameFiles.symm]
        exact located
      · simpa [apartPaths r.file ownFile file inProject, apartPaths file inProject r.file ownFile]
          using spelled
  · -- There are as many identities as definitions, so a stray caller has none.
    refine resolveSite?_eq_none (List.getElem?_eq_none ?_)
    simp only [decide_eq_false_iff_not] at outside
    omega

namespace Sample

def define (name : String) : Definition := .spanning name .function 1 3

def first : Outline := { file := "a:b.js", definitions := [define "x::y"] }

def second : Outline := { file := "b.js", definitions := [define "c::d"] }

/-- One call of an imported name, and one through an imported module. -/
def caller : Outline where
  file := "m.js"
  definitions := [define "main"]
  sites := [⟨0, "go", none, 2⟩, ⟨0, "x::y", some "lib", 3⟩]
  imports := [("go", Import.named "./b" "c::d"), ("lib", Import.whole "./a:b")]

theorem named_caller : nameFiles [] (Outline.sortByFile [first, second, caller])
    = [⟨first, ["a:b.js::x::y"]⟩, ⟨second, ["b.js::c::d"]⟩, ⟨caller, ["m.js::main"]⟩] := by
  have sorted : Outline.sortByFile [first, second, caller] = [first, second, caller] := by
    apply List.mergeSort_of_pairwise
    decide
  rw [sorted]
  simp [nameFiles, nameAll, freshId, plainId, first, second, caller, define, Definition.spanning,
    Definition.qualified, qualify]

def short : Outline := { file := "a.js" }

def long : Outline := { file := "a.js::b.js", definitions := [define "run"] }

/-- A call of a name that is spelled as the longer path goes on. -/
def stray : Outline where
  file := "main.js"
  definitions := [define "main"]
  sites := [⟨0, "start", none, 2⟩]
  imports := [("start", Import.named "./a.js" "b.js::run")]

theorem named_stray : nameFiles [] (Outline.sortByFile [short, long, stray])
    = [⟨short, []⟩, ⟨long, ["a.js::b.js::run"]⟩, ⟨stray, ["main.js::main"]⟩] := by
  have sorted : Outline.sortByFile [short, long, stray] = [short, long, stray] := by
    apply List.mergeSort_of_pairwise
    decide
  rw [sorted]
  simp [nameFiles, nameAll, freshId, plainId, short, long, stray, define, Definition.spanning,
    Definition.qualified, qualify]

end Sample

open Sample

theorem build_imports_land_in_their_files_colons :
    let outlines := [first, second, caller]
    (∀ one ∈ outlines, ∀ other ∈ outlines, ¬ Continues one.file other.file) ∧
    (build outlines).calls.map Call.rule = [some .imported, some .member] ∧
    List.Forall₂ (fun entry c => c.file = entry.1.outline.file ∧
        ∀ rule, c.rule = some rule → rule = .imported ∨ rule = .member →
          LandsInImport (build outlines) (outlines.map Outline.file) entry.1.outline entry.2 c rule)
      (attributed (nameFiles [] (Outline.sortByFile outlines))) (build outlines).calls := by
  intro outlines
  have apart : ∀ one ∈ outlines, ∀ other ∈ outlines, ¬ Continues one.file other.file := by decide
  refine ⟨apart, ?_, build_imports_land_in_their_files outlines apart⟩
  rw [build, named_caller]
  decide +kernel

/-- Where one path goes on with colons where another one ends, an import from the one file leads to
    a routine of the other. -/
theorem import_leads_into_another_file :
    let outlines := [short, long, stray]
    let site : Site := ⟨0, "start", none, 2⟩
    attributed (nameFiles [] (Outline.sortByFile outlines)) = [(⟨stray, ["main.js::main"]⟩, site)] ∧
    ∃ c, (build outlines).calls = [c] ∧ c.rule = some .imported ∧
      (c.target.bind (build outlines).routine?).map Routine.file = some "a.js::b.js" ∧
      (importOf? stray site .imported).bind (fun binding =>
        Scope.resolve? (outlines.map Outline.file) binding.specifier stray.file) = some "a.js" ∧
      ¬ LandsInImport (build outlines) (outlines.map Outline.file) stray site c .imported := by
  intro outlines site
  have calls : (build outlines).calls
      = [.known "main.js::main" "a.js::b.js::run" "start" none "main.js" 2 true .imported] := by
    rw [build, named_stray]
    decide +kernel
  have target : ((build outlines).routine? "a.js::b.js::run").map Routine.file
      = some "a.js::b.js" := by
    rw [build, named_stray]
    decide +kernel
  have located : Scope.resolve? (outlines.map Outline.file) "./a.js" "main.js" = some "a.js" := by
    decide
  refine ⟨by rw [named_stray]; rfl, _, calls, rfl, target, located, ?_⟩
  rintro ⟨binding, file, id, r, bound, resolved, isTarget, found, sameFile⟩
  cases bound
  cases isTarget
  -- The import stands for one file, and the routine lies in the other.
  have files : some file = some "a.js" := resolved.symm.trans located
  cases files
  rw [found, Option.map_some, sameFile] at target
  exact absurd target (by decide)

end CallGraph

end LoadBearing
