import LoadBearing.Proofs.ArrivalOrder

/-!
# Adding a file

A file that no import reaches leaves the rest of the graph alone.  The routines of the other files
keep their identities, and their calls keep their targets, with one exception: a name may stop being
unique, or may be found in the new file and nowhere else.

The argument rests on keys.  Where paths hold no colon, the first colon of a key ends its path, so
identities and exports of different files never meet and every index falls apart by file.
-/

namespace LoadBearing

namespace Scope

/-- A path that ends at the first colon of a key. -/
def Plain (file : String) : Prop :=
  ':' ∉ file.toList

instance (file : String) : Decidable (Plain file) :=
  inferInstanceAs (Decidable (':' ∉ file.toList))

theorem takeWhile_exportKey {file : String} (plain : Plain file) (name : String) :
    (exportKey file name).toList.takeWhile (· ≠ ':') = file.toList := by
  have spelled : (exportKey file name).toList = file.toList ++ ':' :: ':' :: name.toList := by
    simp [exportKey]
  have inPath : ∀ c ∈ file.toList, decide (c ≠ ':') = true := by
    intro c member
    have different : c ≠ ':' := fun same => plain (same ▸ member)
    simpa using different
  rw [spelled, List.takeWhile_append_of_pos inPath]
  simp

theorem exportKey_eq_iff {file other name otherName : String} (plain : Plain file)
    (plainOther : Plain other) :
    exportKey file name = exportKey other otherName ↔ file = other ∧ name = otherName := by
  constructor
  · intro same
    have paths : file = other := by
      rw [← String.toList_inj, ← takeWhile_exportKey plain name, same,
        takeWhile_exportKey plainOther]
    subst paths
    refine ⟨rfl, ?_⟩
    simpa [exportKey] using same
  · rintro ⟨rfl, rfl⟩
    rfl

theorem resolve?_congr {files others : List String} (same : ∀ file, file ∈ files ↔ file ∈ others)
    (specifier importer : String) :
    resolve? files specifier importer = resolve? others specifier importer := by
  have contains : files.contains = others.contains := by
    funext file
    simp [same]
  rw [resolve?, resolve?, contains]

theorem find?_contains_cons_of_ne {files candidates : List String} {new : String}
    (missed : candidates.find? (new :: files).contains ≠ some new) :
    candidates.find? (new :: files).contains = candidates.find? files.contains := by
  induction candidates with
  | nil => rfl
  | cons candidate rest ih =>
    by_cases isNew : candidate = new
    · simp [isNew] at missed
    · by_cases here : candidate ∈ files
      · simp [here]
      · simp only [List.find?_cons, List.contains_eq_mem, List.mem_cons, isNew, here, or_self,
          decide_false] at missed ⊢
        simpa using ih (by simpa using missed)

/-- A new file that is not the answer does not change the answer. -/
theorem resolve?_cons_of_ne {files : List String} {new specifier importer : String}
    (missed : resolve? (new :: files) specifier importer ≠ some new) :
    resolve? (new :: files) specifier importer = resolve? files specifier importer := by
  simp only [resolve?] at missed ⊢
  cases base : normalize? (spelled specifier importer) with
  | none => rfl
  | some path =>
    rw [base] at missed
    exact find?_contains_cons_of_ne missed

end Scope

namespace CallGraph

open Scope (exportKey Plain exportKey_eq_iff)

/-! ## Identities -/

/-- An identity that starts with the path of a file. -/
def Inside (file id : String) : Prop :=
  ∃ name, id = exportKey file name

section Naming

variable {file id : String} {taken others : List String}

theorem Inside.withLine (inside : Inside file id) (line : Nat) :
    Inside file (withLine id line) := by
  obtain ⟨name, rfl⟩ := inside
  refine ⟨name ++ "@L" ++ toString line, ?_⟩
  simp [CallGraph.withLine, exportKey, String.append_assoc]

theorem Inside.freshId (inside : Inside file id) (taken : List String) (line : Nat) :
    Inside file (freshId taken line id) := by
  fun_induction CallGraph.freshId taken line id with
  | case1 id isTaken ih => exact ih (inside.withLine line)
  | case2 id isFree => exact inside

/-- Only identities of the same file stand in the way of a new one. -/
theorem freshId_congr (agree : ∀ id, Inside file id → (id ∈ taken ↔ id ∈ others))
    (inside : Inside file id) (line : Nat) :
    freshId taken line id = freshId others line id := by
  fun_induction freshId taken line id with
  | case1 id isTaken ih =>
    have alsoTaken : id ∈ others := (agree id inside).1 isTaken
    rw [ih (inside.withLine line)]
    conv_rhs => rw [freshId, dif_pos alsoTaken]
  | case2 id isFree =>
    have alsoFree : id ∉ others := fun member => isFree ((agree id inside).2 member)
    rw [freshId, dif_neg alsoFree]

theorem inside_nameAll (file : String) (taken : List String) (definitions : List Definition) :
    ∀ id ∈ nameAll file taken definitions, Inside file id := by
  induction definitions generalizing taken with
  | nil => simp [nameAll]
  | cons d rest ih =>
    intro id member
    rw [nameAll] at member
    rcases List.mem_cons.1 member with rfl | later
    · have plain : Inside file (plainId file d) := ⟨d.qualified, rfl⟩
      exact plain.freshId taken d.line
    · exact ih _ id later

theorem nameAll_congr (agree : ∀ id, Inside file id → (id ∈ taken ↔ id ∈ others))
    (definitions : List Definition) :
    nameAll file taken definitions = nameAll file others definitions := by
  induction definitions generalizing taken others with
  | nil => rfl
  | cons d rest ih =>
    have plain : Inside file (plainId file d) := ⟨d.qualified, rfl⟩
    have first := freshId_congr agree plain d.line
    have agreeLater : ∀ id, Inside file id → (id ∈ freshId taken d.line (plainId file d) :: taken ↔
        id ∈ freshId taken d.line (plainId file d) :: others) := by
      intro id inside
      simp only [List.mem_cons, agree id inside]
    rw [nameAll, nameAll, ← first, ih agreeLater]

end Naming

def alone (outline : Outline) : NamedOutline :=
  ⟨outline, nameAll outline.file [] outline.definitions⟩

/-- Files with different plain paths are named independently. -/
theorem nameFiles_eq_map_alone {outlines : List Outline}
    (distinct : (outlines.map Outline.file).Nodup) (plain : ∀ o ∈ outlines, Plain o.file)
    (taken : List String) (apart : ∀ o ∈ outlines, ∀ id ∈ taken, ¬ Inside o.file id) :
    nameFiles taken outlines = outlines.map alone := by
  induction outlines generalizing taken with
  | nil => rfl
  | cons outline rest ih =>
    obtain ⟨fresh, distinctRest⟩ := List.nodup_cons.1 distinct
    have ids : nameAll outline.file taken outline.definitions
        = nameAll outline.file [] outline.definitions := by
      apply nameAll_congr
      intro id inside
      have free : id ∉ taken := fun member => apart outline List.mem_cons_self id member inside
      simp [free]
    have later : nameFiles (nameAll outline.file taken outline.definitions ++ taken) rest
        = rest.map alone := by
      apply ih distinctRest (fun o member => plain o (List.mem_cons_of_mem _ member))
      intro o member id isTaken inside
      rcases List.mem_append.1 isTaken with here | earlier
      · -- An identity of this file is none of a later one.
        obtain ⟨name, rfl⟩ := inside_nameAll _ _ _ id here
        obtain ⟨otherName, same⟩ := inside
        have files := (exportKey_eq_iff (plain outline List.mem_cons_self)
          (plain o (List.mem_cons_of_mem _ member))).1 same
        exact fresh (files.1 ▸ List.mem_map_of_mem member)
      · exact apart o (List.mem_cons_of_mem _ member) id earlier inside
    rw [nameFiles, later, ids]
    rfl

/-! ## Default exports -/

theorem find?_defaultExports {named : List NamedOutline}
    (distinct : (named.map (·.outline.file)).Nodup) (file : String) :
    (defaultExports named).find? file
      = (named.find? fun n => n.outline.file = file).bind NamedOutline.default? := by
  -- The loop is generalised to start with any table.
  have start : (named.find? fun n => n.outline.file = file).bind NamedOutline.default?
      = ((named.find? fun n => n.outline.file = file).bind NamedOutline.default?).or
          (Table.find? [] file) := by simp
  rw [start, defaultExports]
  clear start
  generalize ([] : Table String) = table
  induction named generalizing table with
  | nil => simp
  | cons n rest ih =>
    obtain ⟨fresh, distinctRest⟩ := List.nodup_cons.1 distinct
    rw [List.foldl_cons, ih distinctRest]
    by_cases here : n.outline.file = file
    · have later : (rest.find? fun other => other.outline.file = file) = none := by
        rw [List.find?_eq_none]
        intro other member same
        have files : other.outline.file = n.outline.file := by simpa [here] using same
        exact fresh (List.mem_map.2 ⟨other, member, files⟩)
      cases bound : n.default? <;> simp [later, here, bound, Table.find?_insert]
    · cases bound : n.default? <;> simp [here, Table.find?_insert, Ne.symm here]

theorem default?_exportKey {defaults : Table String} (ordered : defaults.Ordered)
    (plainKeys : ∀ file ∈ defaults.keys, Plain file) {file : String} (plain : Plain file)
    (name : String) :
    Scope.default? defaults (exportKey file name)
      = if name = "default" then defaults.find? file else none := by
  apply Option.ext
  intro id
  rw [Scope.default?_eq_some_iff (ordered.imp ne_of_lt)]
  constructor
  · rintro ⟨other, member, same⟩
    have plainOther : Plain other := plainKeys other (List.mem_map_of_mem member)
    obtain ⟨rfl, rfl⟩ := (exportKey_eq_iff plainOther plain).1 same
    rw [if_pos rfl]
    exact ordered.find?_of_mem member
  · intro found
    split at found
    next isDefault =>
      subst isDefault
      exact ⟨file, Table.mem_of_find? found, rfl⟩
    next => cases found

/-! ## One file more -/

def routinesOf (outlines : List Outline) : List Routine :=
  outlines.flatMap fun o => (alone o).routines

def symbolsOf (outlines : List Outline) : Scope.Symbols :=
  Scope.Symbols.build (routinesOf outlines) (defaultExports (outlines.map alone))

def callsOf (outlines : List Outline) (o : Outline) : List Call :=
  o.sites.filterMap (resolveSite? (symbolsOf outlines) (homes (routinesOf outlines))
    (resolveImports (outlines.map Outline.file) o) (alone o))

/-- Files with different plain paths make a graph of what each of them has alone. -/
theorem build_eq_ofParts {outlines : List Outline}
    (distinct : ((Outline.sortByFile outlines).map Outline.file).Nodup)
    (plain : ∀ o ∈ Outline.sortByFile outlines, Plain o.file) :
    build outlines = ofParts (routinesOf (Outline.sortByFile outlines))
      ((Outline.sortByFile outlines).flatMap (callsOf (Outline.sortByFile outlines))) := by
  have named := nameFiles_eq_map_alone distinct plain [] (by simp)
  have files : ((Outline.sortByFile outlines).map alone).map (·.outline.file)
      = (Outline.sortByFile outlines).map Outline.file := by
    rw [List.map_map]
    rfl
  simp only [build, named, files, List.flatMap_map]
  rfl

theorem file_of_mem_callsOf {outlines : List Outline} {o : Outline} {c : Call}
    (member : c ∈ callsOf outlines o) : c.file = o.file := by
  obtain ⟨site, -, made⟩ := List.mem_filterMap.1 member
  cases named : (alone o).ids[site.caller]? with
  | none =>
    rw [resolveSite?_eq_none named] at made
    cases made
  | some source =>
    cases resolved : (symbolsOf outlines).resolve? ⟨o.file, site.name, site.receiver,
        resolveImports (outlines.map Outline.file) o⟩ with
    | none =>
      rw [resolveSite?_of_none named resolved] at made
      cases made
      rfl
    | some found =>
      rw [resolveSite?_of_some named resolved] at made
      cases made
      rfl

theorem filter_flatMap_file {α : Type} {outlines : List Outline} {make : Outline → List α}
    {file : α → String} (origin : ∀ o ∈ outlines, ∀ item ∈ make o, file item = o.file)
    (new : String) :
    (outlines.flatMap make).filter (fun item => file item ≠ new)
      = (outlines.filter fun o => o.file ≠ new).flatMap make := by
  induction outlines with
  | nil => rfl
  | cons o rest ih =>
    have later := ih fun other member => origin other (List.mem_cons_of_mem _ member)
    have here := origin o List.mem_cons_self
    rw [List.flatMap_cons, List.filter_append, later]
    by_cases isNew : o.file = new
    · have none : (make o).filter (fun item => file item ≠ new) = [] := by
        rw [List.filter_eq_nil_iff]
        intro item member
        simp [here item member, isNew]
      rw [none, List.filter_cons_of_neg (by simpa using isNew), List.nil_append]
    · have all : (make o).filter (fun item => file item ≠ new) = make o := by
        rw [List.filter_eq_self]
        intro item member
        simp [here item member, isNew]
      rw [all, List.filter_cons_of_pos (by simpa using isNew), List.flatMap_cons]

/-- The files after one more was added: each has a plain path of its own, and no import of the
    others reaches the new one. -/
structure Adds (new : Outline) (others all : List Outline) : Prop where
  others_eq : all.filter (fun o => o.file ≠ new.file) = others
  member : new ∈ all
  distinct : (all.map Outline.file).Nodup
  plain : ∀ o ∈ all, Plain o.file
  unreached : ∀ o ∈ others, ∀ entry ∈ o.imports,
    Scope.resolve? (all.map Outline.file) entry.2.specifier o.file ≠ some new.file

variable {new : Outline} {others all : List Outline}

namespace Adds

theorem mem_others (adds : Adds new others all) {o : Outline} :
    o ∈ others ↔ o ∈ all ∧ o.file ≠ new.file := by
  rw [← adds.others_eq, List.mem_filter]
  simp

theorem distinct_others (adds : Adds new others all) : (others.map Outline.file).Nodup := by
  rw [← adds.others_eq]
  exact adds.distinct.sublist (List.filter_sublist.map _)

theorem plain_others (adds : Adds new others all) : ∀ o ∈ others, Plain o.file :=
  fun o member => adds.plain o (adds.mem_others.1 member).1

theorem filter_routinesOf (adds : Adds new others all) :
    (routinesOf all).filter (fun r => r.file ≠ new.file) = routinesOf others := by
  rw [routinesOf, filter_flatMap_file fun _ _ _ => file_of_mem_routines, adds.others_eq, routinesOf]

theorem filter_calls (adds : Adds new others all) :
    (all.flatMap (callsOf all)).filter (fun c => c.file ≠ new.file)
      = others.flatMap (callsOf all) := by
  rw [filter_flatMap_file fun _ _ _ => file_of_mem_callsOf, adds.others_eq]

theorem mem_files (adds : Adds new others all) {file : String} :
    file ∈ all.map Outline.file ↔ file ∈ new.file :: others.map Outline.file := by
  rw [List.mem_cons, List.mem_map, List.mem_map]
  constructor
  · rintro ⟨o, member, rfl⟩
    by_cases isNew : o.file = new.file
    · exact .inl isNew
    · exact .inr ⟨o, adds.mem_others.2 ⟨member, isNew⟩, rfl⟩
  · rintro (rfl | ⟨o, member, rfl⟩)
    · exact ⟨new, adds.member, rfl⟩
    · exact ⟨o, (adds.mem_others.1 member).1, rfl⟩

/-- The imports of the other files stand for the same files as before. -/
theorem resolveImports_eq (adds : Adds new others all) {o : Outline} (member : o ∈ others) :
    resolveImports (all.map Outline.file) o = resolveImports (others.map Outline.file) o := by
  rw [resolveImports, resolveImports]
  apply List.map_congr_left
  intro entry inImports
  have listed := Scope.resolve?_congr (fun _ => adds.mem_files) entry.2.specifier o.file
  have unreached := adds.unreached o member entry inImports
  rw [listed] at unreached
  simp only [listed, Scope.resolve?_cons_of_ne unreached]

end Adds

/-! ### Exports -/

theorem map_id_routinesOf (outlines : List Outline) :
    (routinesOf outlines).map Routine.id = (outlines.map alone).flatMap (·.ids) := by
  rw [routinesOf, List.map_flatMap, List.flatMap_map]
  exact List.flatMap_congr fun o _ => map_id_routines (length_nameAll _ _ _)

theorem nodup_ids {outlines : List Outline} (distinct : (outlines.map Outline.file).Nodup)
    (plain : ∀ o ∈ outlines, Plain o.file) : ((routinesOf outlines).map Routine.id).Nodup := by
  rw [map_id_routinesOf, ← nameFiles_eq_map_alone distinct plain [] (by simp)]
  exact (nodup_nameFiles [] outlines).1

theorem refers_symbolsOf (outlines : List Outline) :
    (symbolsOf outlines).Refers ((routinesOf outlines).map Routine.id) := by
  apply Scope.Symbols.refers_build
  · exact fun r member => List.mem_map_of_mem member
  · intro entry member
    rw [map_id_routinesOf]
    exact mem_defaultExports member

theorem find?_filter_of_imp {α : Type} {items : List α} {wanted kept : α → Bool}
    (keeps : ∀ item ∈ items, wanted item = true → kept item = true) :
    (items.filter kept).find? wanted = items.find? wanted := by
  induction items with
  | nil => rfl
  | cons item rest ih =>
    have later := ih fun other member => keeps other (List.mem_cons_of_mem _ member)
    have here := keeps item List.mem_cons_self
    cases isKept : kept item with
    | true => rw [List.filter_cons_of_pos isKept, List.find?_cons, List.find?_cons, later]
    | false =>
      have unwanted : ¬ wanted item = true := fun isWanted => by simp [here isWanted] at isKept
      rw [List.filter_cons_of_neg (by simp [isKept]), List.find?_cons_of_neg unwanted, later]

theorem find?_defaultExports_alone {outlines : List Outline}
    (distinct : (outlines.map Outline.file).Nodup) (file : String) :
    (defaultExports (outlines.map alone)).find? file
      = (outlines.find? fun o => o.file = file).bind fun o => (alone o).default? := by
  have files : ((outlines.map alone).map (·.outline.file)) = outlines.map Outline.file := by
    rw [List.map_map]
    rfl
  rw [find?_defaultExports (files ▸ distinct), List.find?_map, Option.bind_map]
  rfl

theorem plain_keys_defaultExports {outlines : List Outline}
    (distinct : (outlines.map Outline.file).Nodup) (plain : ∀ o ∈ outlines, Plain o.file) :
    ∀ file ∈ (defaultExports (outlines.map alone)).keys, Plain file := by
  intro file member
  obtain ⟨id, found⟩ := Table.mem_keys_iff.1 member
  rw [find?_defaultExports_alone distinct] at found
  obtain ⟨o, listed, -⟩ := Option.bind_eq_some_iff.1 found
  have same : o.file = file := by simpa using List.find?_some listed
  exact same ▸ plain o (List.mem_of_find?_eq_some listed)

theorem plain_of_mem_routinesOf {outlines : List Outline} (plain : ∀ o ∈ outlines, Plain o.file)
    {r : Routine} (member : r ∈ routinesOf outlines) : Plain r.file := by
  obtain ⟨o, listed, inFile⟩ := List.mem_flatMap.1 member
  rw [file_of_mem_routines inFile]
  exact plain o listed

theorem file_eq_of_claims {r : Routine} {file name : String} (plainRoutine : Plain r.file)
    (plain : Plain file) (claims : Scope.Claims r (exportKey file name)) : r.file = file := by
  rcases claims with same | ⟨-, same⟩
  · exact ((exportKey_eq_iff plainRoutine plain).1 same).1
  · exact ((exportKey_eq_iff plainRoutine plain).1 same).1

namespace Adds

theorem exported?_eq (adds : Adds new others all) {file : String} (plain : Plain file)
    (different : file ≠ new.file) (name : String) :
    Scope.exported? (routinesOf all) (defaultExports (all.map alone)) file name
      = Scope.exported? (routinesOf others) (defaultExports (others.map alone)) file name := by
  have claimed : Scope.claimed? (routinesOf all) (exportKey file name)
      = Scope.claimed? (routinesOf others) (exportKey file name) := by
    rw [Scope.claimed?, Scope.claimed?, ← adds.filter_routinesOf, find?_filter_of_imp]
    intro r member claims
    have sameFile : r.file = file := file_eq_of_claims
      (plain_of_mem_routinesOf adds.plain member) plain (by simpa using claims)
    simpa [sameFile] using different
  have outline : (all.find? fun o => o.file = file) = others.find? fun o => o.file = file := by
    rw [← adds.others_eq, find?_filter_of_imp]
    intro o _ sameFile
    have sameFile : o.file = file := by simpa using sameFile
    simpa [sameFile] using different
  have default : Scope.default? (defaultExports (all.map alone)) (exportKey file name)
      = Scope.default? (defaultExports (others.map alone)) (exportKey file name) := by
    rw [default?_exportKey (ordered_defaultExports _)
        (plain_keys_defaultExports adds.distinct adds.plain) plain,
      default?_exportKey (ordered_defaultExports _)
        (plain_keys_defaultExports adds.distinct_others adds.plain_others) plain,
      find?_defaultExports_alone adds.distinct, find?_defaultExports_alone adds.distinct_others,
      outline]
  rw [Scope.exported?, Scope.exported?, claimed, default]

end Adds

/-! ### Rules -/

theorem mem_of_resolve? {files : List String} {specifier importer file : String}
    (found : Scope.resolve? files specifier importer = some file) : file ∈ files := by
  rw [Scope.resolve?] at found
  obtain ⟨base, -, probed⟩ := Option.bind_eq_some_iff.1 found
  simpa using List.find?_some probed

theorem mem_of_find?_resolveImports {files : List String} {o : Outline} {name file : String}
    {binding : Import} (bound : (resolveImports files o).find? name = some binding)
    (located : binding.file = some file) : file ∈ files := by
  have listed := Table.mem_of_find? bound
  rw [resolveImports] at listed
  obtain ⟨entry, -, same⟩ := List.mem_map.1 listed
  cases same
  exact mem_of_resolve? located

/-- Taking routines away leaves the only one of a kind, unless it is taken away or others were. -/
theorem lone?_filter_cases (routines : List Routine) (condition kept : Routine → Bool) :
    Scope.lone? routines condition = Scope.lone? (routines.filter kept) condition ∨
      Scope.lone? routines condition = none ∨
      Scope.lone? (routines.filter kept) condition = none ∧
        ∃ r ∈ routines, kept r = false ∧ Scope.lone? routines condition = some r.id := by
  cases found : Scope.lone? routines condition with
  | none => exact .inr (.inl rfl)
  | some id =>
    obtain ⟨r, single, rfl⟩ := Scope.lone?_eq_some_iff.1 found
    have member : r ∈ routines.filter condition := single ▸ List.mem_singleton_self r
    have swapped : (routines.filter kept).filter condition = [r].filter kept := by
      rw [← single, List.filter_filter, List.filter_filter]
      simp only [Bool.and_comm]
    cases isKept : kept r with
    | true =>
      left
      rw [Scope.lone?, swapped]
      simp [isKept]
    | false =>
      right
      right
      refine ⟨?_, r, List.mem_of_mem_filter member, isKept, rfl⟩
      rw [Scope.lone?, swapped]
      simp [isKept]

namespace Adds

def query (outlines : List Outline) (o : Outline) (site : Site) : Scope.Query :=
  ⟨o.file, site.name, site.receiver, resolveImports (outlines.map Outline.file) o⟩

variable {o : Outline}

theorem agreeOn (adds : Adds new others all) (o : Outline) :
    Scope.AgreeOn (resolveImports (others.map Outline.file) o)
      (Scope.exported? (routinesOf all) (defaultExports (all.map alone)))
      (Scope.exported? (routinesOf others) (defaultExports (others.map alone))) := by
  intro name binding file bound located
  obtain ⟨other, member, rfl⟩ := List.mem_map.1 (mem_of_find?_resolveImports bound located)
  funext exported
  exact adds.exported?_eq (adds.plain_others other member) (adds.mem_others.1 member).2 exported

theorem lone_sameFile_iff (adds : Adds new others all) {file : String} (different : file ≠ new.file)
    {name id : String} :
    Scope.Lone (routinesOf all) (fun r => r.name = name && r.file = file) id ↔
      Scope.Lone (routinesOf others) (fun r => r.name = name && r.file = file) id := by
  have same : (routinesOf others).filter (fun r => r.name = name && r.file = file)
      = (routinesOf all).filter fun r => r.name = name && r.file = file := by
    rw [← adds.filter_routinesOf, List.filter_filter]
    apply List.filter_congr
    intro r _
    by_cases sameFile : r.file = file
    · simp [sameFile, different]
    · simp [sameFile]
  rw [Scope.Lone, Scope.Lone, same]

/-- All rules but the last find for the other files what they found before. -/
theorem attempt?_eq (adds : Adds new others all) (member : o ∈ others) (site : Site) {rule : Rule}
    (early : rule ∈ Scope.before .unique) :
    (symbolsOf all).attempt? (query others o site) rule
      = (symbolsOf others).attempt? (query others o site) rule := by
  have keys : ∀ outlines : List Outline, (defaultExports (outlines.map alone)).keys.Nodup :=
    fun outlines => (ordered_defaultExports _).imp ne_of_lt
  have agree := adds.agreeOn o
  apply Option.ext
  intro id
  rw [symbolsOf, symbolsOf, Scope.Symbols.attempt?_build_iff (keys all),
    Scope.Symbols.attempt?_build_iff (keys others)]
  cases rule with
  | imported => exact ⟨fun target => target.mono agree, fun target => target.mono agree.symm⟩
  | member => exact ⟨fun target => target.mono agree, fun target => target.mono agree.symm⟩
  | sameFile => exact adds.lone_sameFile_iff (adds.mem_others.1 member).2
  | unique => exact absurd early (by decide)

/-- The last rule finds what it found before, or nothing, or a routine of the new file. -/
theorem attempt?_unique_cases (adds : Adds new others all) (q : Scope.Query) :
    (symbolsOf all).attempt? q .unique = (symbolsOf others).attempt? q .unique ∨
      (symbolsOf all).attempt? q .unique = none ∨
      (symbolsOf others).attempt? q .unique = none ∧
        ∃ r ∈ routinesOf all, r.file = new.file ∧
          (symbolsOf all).attempt? q .unique = some r.id := by
  simp only [Scope.Symbols.attempt?, symbolsOf, Scope.Symbols.only?_build]
  cases Scope.isBuiltin q.name with
  | true => exact .inl rfl
  | false =>
    have cases := lone?_filter_cases (routinesOf all)
      (fun r => r.name = q.name && Option.all (· = r.file) none) fun r => r.file ≠ new.file
    rw [adds.filter_routinesOf] at cases
    simpa using cases

/-- The other calls resolve as before, unless no rule but the last applies. -/
theorem resolve?_cases (adds : Adds new others all) (member : o ∈ others) (site : Site) :
    (symbolsOf all).resolve? (query others o site)
        = (symbolsOf others).resolve? (query others o site) ∨
      (∃ id, (symbolsOf others).resolve? (query others o site) = some ⟨id, .unique⟩) ∧
        (symbolsOf all).resolve? (query others o site) = none ∨
      (symbolsOf others).resolve? (query others o site) = none ∧
        ∃ r ∈ routinesOf all, r.file = new.file ∧
          (symbolsOf all).resolve? (query others o site) = some ⟨r.id, .unique⟩ := by
  have early : (symbolsOf all).early? (query others o site)
      = (symbolsOf others).early? (query others o site) :=
    Scope.Symbols.early?_congr fun _ tried => adds.attempt?_eq member site tried
  rw [Scope.Symbols.resolve?_eq_or, Scope.Symbols.resolve?_eq_or, early]
  cases (symbolsOf others).early? (query others o site) with
  | some found => exact .inl rfl
  | none =>
    simp only [Option.none_or]
    rcases adds.attempt?_unique_cases (query others o site) with same | lost | gained
    · exact .inl (by rw [same])
    · cases before : (symbolsOf others).attempt? (query others o site) .unique with
      | none => exact .inl (by rw [lost])
      | some id => exact .inr (.inl ⟨⟨id, rfl⟩, by rw [lost]; rfl⟩)
    · obtain ⟨before, r, inGraph, inFile, after⟩ := gained
      exact .inr (.inr ⟨by rw [before]; rfl, r, inGraph, inFile, by rw [after]; rfl⟩)

theorem mem_routinesOf (adds : Adds new others all) {r : Routine} (member : r ∈ routinesOf others) :
    r ∈ routinesOf all := by
  rw [← adds.filter_routinesOf] at member
  exact List.mem_of_mem_filter member

theorem find?_homes_eq (adds : Adds new others all) {id : String}
    (known : id ∈ (routinesOf others).map Routine.id) :
    (homes (routinesOf all)).find? id = (homes (routinesOf others)).find? id := by
  obtain ⟨r, member, rfl⟩ := List.mem_map.1 known
  rw [find?_homes (nodup_ids adds.distinct_others adds.plain_others) member,
    find?_homes (nodup_ids adds.distinct adds.plain) (adds.mem_routinesOf member)]

end Adds

/-! ## Calls -/

/-- What may become of a call once a file is added: it stays as it is, or its name stops being
    unique, or the only routine of its name is one of the new file. -/
inductive Drift (g : CallGraph) (new : String) : Call → Call → Prop
  | same (c : Call) : Drift g new c c
  | lost (source target name : String) (receiver : Option String) (file : String) (line : Nat)
      (crosses : Bool) :
      Drift g new (.known source target name receiver file line crosses .unique)
        (.unknown source name receiver file line)
  | gained (source name : String) (receiver : Option String) (file : String) (line : Nat)
      (crosses : Bool) {r : Routine} (member : r ∈ g.routines) (inFile : r.file = new) :
      Drift g new (.unknown source name receiver file line)
        (.known source r.id name receiver file line crosses .unique)

namespace Adds

theorem resolveSite?_drift (adds : Adds new others all) {o : Outline} (member : o ∈ others)
    (site : Site) (calls : List Call) :
    Option.Rel (Drift (ofParts (routinesOf all) calls) new.file)
      (resolveSite? (symbolsOf others) (homes (routinesOf others))
        (resolveImports (others.map Outline.file) o) (alone o) site)
      (resolveSite? (symbolsOf all) (homes (routinesOf all))
        (resolveImports (others.map Outline.file) o) (alone o) site) := by
  cases named : (alone o).ids[site.caller]? with
  | none =>
    rw [resolveSite?_eq_none named, resolveSite?_eq_none named]
    exact .none
  | some source =>
    have sourceKnown : source ∈ (routinesOf others).map Routine.id := by
      rw [map_id_routinesOf]
      exact List.mem_flatMap.2 ⟨alone o, List.mem_map_of_mem member, List.mem_of_getElem? named⟩
    rcases adds.resolve?_cases member site with same | ⟨⟨target, before⟩, after⟩
        | ⟨before, r, inGraph, inFile, after⟩
    · cases before : (symbolsOf others).resolve? (query others o site) with
      | none =>
        rw [resolveSite?_of_none named before, resolveSite?_of_none named (same.trans before)]
        exact .some (.same _)
      | some found =>
        have targetKnown := (refers_symbolsOf others).resolve? before
        rw [resolveSite?_of_some named before, resolveSite?_of_some named (same.trans before),
          adds.find?_homes_eq sourceKnown, adds.find?_homes_eq targetKnown]
        exact .some (.same _)
    · rw [resolveSite?_of_some named before, resolveSite?_of_none named after]
      exact .some (.lost ..)
    · rw [resolveSite?_of_none named before, resolveSite?_of_some named after]
      exact .some (.gained _ _ _ _ _ _ inGraph inFile)

theorem callsOf_drift (adds : Adds new others all) {o : Outline} (member : o ∈ others)
    (calls : List Call) :
    List.Forall₂ (Drift (ofParts (routinesOf all) calls) new.file) (callsOf others o)
      (callsOf all o) := by
  rw [callsOf, callsOf, adds.resolveImports_eq member]
  apply List.rel_filterMap (R := Eq)
  · rintro site _ rfl
    exact adds.resolveSite?_drift member site calls
  · exact List.forall₂_same.2 fun _ _ => rfl

end Adds

/-! ## The graph after a file was added -/

section Extension

variable {project extended : List Outline} {added : Outline}

theorem sortByFile_filter (sorted : (Outline.sortByFile extended).Perm (added :: project))
    (distinct : ((added :: project).map Outline.file).Nodup) :
    (Outline.sortByFile extended).filter (fun o => o.file ≠ added.file)
      = Outline.sortByFile project := by
  obtain ⟨fresh, distinctProject⟩ := List.nodup_cons.1 distinct
  have kept : (added :: project).filter (fun o => o.file ≠ added.file) = project := by
    rw [List.filter_cons_of_neg (by simp), List.filter_eq_self]
    intro o member
    have different : o.file ≠ added.file := fun same => fresh (same ▸ List.mem_map_of_mem member)
    simpa using different
  have sameFiles : ((Outline.sortByFile extended).filter (fun o => o.file ≠ added.file)).Perm
      (Outline.sortByFile project) := by
    have unsorted := sorted.filter fun o => o.file ≠ added.file
    rw [kept] at unsorted
    exact unsorted.trans (List.mergeSort_perm _ _).symm
  apply sameFiles.eq_of_pairwise _
    ((pairwise_mergeSort_textLe Outline.file extended).sublist List.filter_sublist)
    (pairwise_mergeSort_textLe Outline.file project)
  intro one other inExtended inProject below above
  have oneMember : one ∈ project := List.mem_mergeSort.1 (sameFiles.mem_iff.1 inExtended)
  have otherMember : other ∈ project := List.mem_mergeSort.1 inProject
  exact List.inj_on_of_nodup_map distinctProject oneMember otherMember (le_antisymm below above)

theorem adds_sortByFile (extension : extended.Perm (added :: project))
    (distinct : ((added :: project).map Outline.file).Nodup)
    (plain : ∀ o ∈ added :: project, Plain o.file)
    (unreached : ∀ o ∈ project, ∀ entry ∈ o.imports,
      Scope.resolve? ((added :: project).map Outline.file) entry.2.specifier o.file
        ≠ some added.file) :
    Adds added (Outline.sortByFile project) (Outline.sortByFile extended) := by
  have sorted : (Outline.sortByFile extended).Perm (added :: project) :=
    (List.mergeSort_perm extended _).trans extension
  refine ⟨sortByFile_filter sorted distinct, sorted.mem_iff.2 List.mem_cons_self,
    (sorted.map _).nodup_iff.2 distinct, fun o member => plain o (sorted.mem_iff.1 member), ?_⟩
  intro o member entry inImports
  rw [Scope.resolve?_congr fun _ => (sorted.map Outline.file).mem_iff]
  exact unreached o (List.mem_mergeSort.1 member) entry inImports

/-- A file that no import of the project stands for leaves the routines of the project as they are,
    and its calls too, except that a name may stop being unique or be found in the new file only. -/
theorem added_file_affects_unique_names_only (extension : extended.Perm (added :: project))
    (distinct : ((added :: project).map Outline.file).Nodup)
    (plain : ∀ o ∈ added :: project, Plain o.file)
    (unreached : ∀ o ∈ project, ∀ entry ∈ o.imports,
      Scope.resolve? ((added :: project).map Outline.file) entry.2.specifier o.file
        ≠ some added.file) :
    (build extended).routines.filter (fun r => r.file ≠ added.file) = (build project).routines ∧
    List.Forall₂ (Drift (build extended) added.file) (build project).calls
      ((build extended).calls.filter fun c => c.file ≠ added.file) := by
  have adds := adds_sortByFile extension distinct plain unreached
  rw [build_eq_ofParts adds.distinct adds.plain,
    build_eq_ofParts adds.distinct_others adds.plain_others]
  constructor
  · exact adds.filter_routinesOf
  · show List.Forall₂ _ _ (List.filter _ (List.flatMap _ _))
    rw [adds.filter_calls]
    exact forall₂_flatMap fun o member => adds.callsOf_drift member _

end Extension

/-- The new file comes first in the order of files: one name is found in it, another is no longer
    unique, and a call within its own file stays. -/
theorem added_file_affects_unique_names_only_twice :
    let define (name : String) := Definition.spanning name .function 1 2
    let main : Outline := {
      file := "b.js", definitions := [define "run", define "step"],
      sites := [⟨0, "step", none, 3⟩, ⟨0, "help", none, 4⟩, ⟨0, "shared", none, 5⟩],
      imports := [("local", Import.named "./c" "shared")] }
    let library : Outline := { file := "c.js", definitions := [define "shared"] }
    let added : Outline := { file := "a.js", definitions := [define "help", define "shared"] }
    ([main, library, added].Perm [added, main, library] ∧
      ([added, main, library].map Outline.file).Nodup ∧
      (∀ o ∈ [added, main, library], Plain o.file) ∧
      ∀ o ∈ [main, library], ∀ entry ∈ o.imports,
        Scope.resolve? ([added, main, library].map Outline.file) entry.2.specifier o.file
          ≠ some added.file) ∧
    (build [main, library, added]).routines.filter (fun r => r.file ≠ added.file)
      = (build [main, library]).routines ∧
    List.Forall₂ (Drift (build [main, library, added]) added.file) (build [main, library]).calls
      ((build [main, library, added]).calls.filter fun c => c.file ≠ added.file) := by
  intro define main library added
  have extension : [main, library, added].Perm [added, main, library] := by decide
  have distinct : ([added, main, library].map Outline.file).Nodup := by decide
  have plain : ∀ o ∈ [added, main, library], Plain o.file := by decide
  have unreached : ∀ o ∈ [main, library], ∀ entry ∈ o.imports,
      Scope.resolve? ([added, main, library].map Outline.file) entry.2.specifier o.file
        ≠ some added.file := by decide
  exact ⟨⟨extension, distinct, plain, unreached⟩,
    added_file_affects_unique_names_only extension distinct plain unreached⟩

end CallGraph

end LoadBearing
