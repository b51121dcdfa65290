import LoadBearing.Proofs.Marks
import LoadBearing.Proofs.Segments
import LoadBearing.Scope.Specifier

/-! # Normal paths and the files they are probed for

A path leads up and down from a directory.  It has a normal form unless somewhere on its way it has
gone up more often than down, and the normal form is the one path made of names alone that leads, in
any tree and from any place, where the path leads.

A specifier is spelled out from the directory of the importing file or from the root, brought into
its normal form and probed with every extension and as a directory.  The answer is the first probe
that is a file of the project.
-/

namespace LoadBearing.Scope

open Text

/-! ## Going up and down -/

def isName (segment : String) : Bool :=
  segment ≠ "" && segment ≠ "." && segment ≠ ".."

theorem isName_iff {segment : String} :
    isName segment = true ↔ segment ≠ "" ∧ segment ≠ "." ∧ segment ≠ ".." := by
  simp [isName, and_assoc]

/-- Started so many levels down, the segments at some point have gone up more often than down. -/
def Dips (depth : Nat) (segments : List String) : Prop :=
  ∃ start, start <+: segments ∧ depth + start.countP isName < start.count ".."

theorem not_dips_nil (depth : Nat) : ¬ Dips depth [] := by
  rintro ⟨start, within, less⟩
  obtain rfl := List.prefix_nil.1 within
  simp at less

theorem dips_cons {depth : Nat} {segment : String} {rest : List String} :
    Dips depth (segment :: rest) ↔ ∃ start, start <+: rest ∧
      depth + (segment :: start).countP isName < (segment :: start).count ".." := by
  simp only [Dips, List.prefix_cons_iff]
  constructor
  · rintro ⟨_, rfl | ⟨start, rfl, within⟩, less⟩
    · simp at less
    · exact ⟨start, within, less⟩
  · rintro ⟨start, within, less⟩
    exact ⟨_, .inr ⟨start, rfl, within⟩, less⟩

theorem dips_idle {depth : Nat} {segment : String} {rest : List String}
    (idle : segment = "" ∨ segment = ".") : Dips depth (segment :: rest) ↔ Dips depth rest := by
  rw [dips_cons, Dips]
  rcases idle with rfl | rfl <;> simp [isName]

theorem dips_name {depth : Nat} {segment : String} {rest : List String}
    (name : isName segment = true) : Dips depth (segment :: rest) ↔ Dips (depth + 1) rest := by
  have notUp : segment ≠ ".." := (isName_iff.1 name).2.2
  rw [dips_cons, Dips]
  simp only [List.countP_cons_of_pos name, List.count_cons_of_ne notUp, Nat.add_assoc,
    Nat.add_comm 1]

theorem dips_up {depth : Nat} {rest : List String} :
    Dips (depth + 1) (".." :: rest) ↔ Dips depth rest := by
  have notName : ¬ isName ".." = true := by decide
  rw [dips_cons, Dips]
  simp only [List.countP_cons_of_neg notName, List.count_cons_self]
  refine exists_congr fun start => and_congr_right fun _ => ?_
  omega

theorem dips_zero_up (rest : List String) : Dips 0 (".." :: rest) :=
  dips_cons.2 ⟨[], List.nil_prefix, by decide⟩

/-- The way ends above the root just if it dips below the directory it starts in. -/
theorem follow?_eq_none_iff {trail segments : List String} :
    follow? trail segments = none ↔ Dips trail.length segments := by
  fun_induction follow? trail segments with
  | case1 trail => simp [not_dips_nil]
  | case2 trail segment rest idle ih => rw [ih, dips_idle (by simpa using idle)]
  | case3 rest _ => simpa using dips_zero_up rest
  | case4 rest name above _ ih => rw [ih, List.length_cons, dips_up]
  | case5 trail segment rest idle up ih =>
    have name : isName segment = true := by simp_all [isName]
    rw [ih, List.length_cons, dips_name name]

/-- Some of the first segments go up more often than down. -/
def Escapes (segments : List String) : Prop :=
  ∃ start, start <+: segments ∧ start.countP isName < start.count ".."

theorem normalize?_eq_none_iff {path : String} :
    normalize? path = none ↔ Escapes (split '/' path) := by
  rw [normalize?, Option.map_eq_none_iff, follow?_eq_none_iff]
  simp [Dips, Escapes]

/-! ## Names -/

/-- Segments that lead down and can stand between slashes. -/
def Names (segments : List String) : Prop :=
  ∀ segment ∈ segments, isName segment = true ∧ '/' ∉ segment.toList

theorem Names.cons {segment : String} {rest : List String} (name : isName segment = true)
    (free : '/' ∉ segment.toList) (names : Names rest) : Names (segment :: rest) :=
  List.forall_mem_cons.2 ⟨⟨name, free⟩, names⟩

theorem names_of_follow? {trail segments final : List String} (names : Names trail)
    (free : ∀ segment ∈ segments, '/' ∉ segment.toList)
    (followed : follow? trail segments = some final) : Names final := by
  fun_induction follow? trail segments with
  | case1 trail =>
    cases followed
    exact names
  | case2 trail segment rest idle ih => exact ih names (List.forall_mem_cons.1 free).2 followed
  | case3 rest _ => cases followed
  | case4 rest name above _ ih =>
    exact ih (List.forall_mem_cons.1 names).2 (List.forall_mem_cons.1 free).2 followed
  | case5 trail segment rest idle up ih =>
    obtain ⟨freeHere, freeLater⟩ := List.forall_mem_cons.1 free
    exact ih (names.cons (by simp_all [isName]) freeHere) freeLater followed

theorem follow?_names {names : List String} (named : Names names) (trail : List String) :
    follow? trail names = some (names.reverse ++ trail) := by
  induction names generalizing trail with
  | nil => rfl
  | cons name rest ih =>
    obtain ⟨⟨here, -⟩, later⟩ := List.forall_mem_cons.1 named
    obtain ⟨some, notDot, notUp⟩ := isName_iff.1 here
    simp [follow?, some, notDot, notUp, ih later]

/-- A path without empty, `.` and `..` segments; the empty path has no segments. -/
def IsNormal (path : String) : Prop :=
  path = "" ∨ ∀ segment ∈ split '/' path, isName segment = true

theorem IsNormal.exists_names {path : String} (normal : IsNormal path) :
    ∃ names, Names names ∧ path = "/".intercalate names := by
  rcases normal with rfl | named
  · exact ⟨[], by simp [Names], rfl⟩
  · exact ⟨split '/' path, fun segment member => ⟨named segment member, notMem_of_mem_split member⟩,
      (intercalate_split_slash path).symm⟩

/-- The segments of joined names are the names, up to the empty segment of the empty path. -/
theorem Names.split_intercalate {names : List String} (named : Names names) :
    names = [] ∧ split '/' ("/".intercalate names) = [""] ∨
      split '/' ("/".intercalate names) = names := by
  by_cases none : names = []
  · subst none
    exact .inl ⟨rfl, rfl⟩
  · exact .inr (split_intercalate_slash none fun segment member => (named segment member).2)

theorem Names.isNormal {names : List String} (named : Names names) :
    IsNormal ("/".intercalate names) := by
  rcases named.split_intercalate with ⟨rfl, -⟩ | cut
  · exact .inl rfl
  · refine .inr fun segment member => ?_
    rw [cut] at member
    exact (named segment member).1

theorem Names.normalize? {names : List String} (named : Names names) :
    normalize? ("/".intercalate names) = some ("/".intercalate names) := by
  rcases named.split_intercalate with ⟨rfl, cut⟩ | cut
  · rfl
  · rw [Scope.normalize?, cut, follow?_names named]
    simp

theorem IsNormal.normalize? {path : String} (normal : IsNormal path) :
    normalize? path = some path := by
  obtain ⟨names, named, rfl⟩ := normal.exists_names
  exact named.normalize?

theorem isNormal_of_normalize? {path normal : String} (read : normalize? path = some normal) :
    IsNormal normal := by
  obtain ⟨trail, followed, rfl⟩ := Option.map_eq_some_iff.1 read
  have names : Names trail :=
    names_of_follow? (by simp [Names]) (fun _ member => notMem_of_mem_split member) followed
  exact Names.isNormal fun segment member => names segment (List.mem_reverse.1 member)

/-! ## Places -/

/-- Places that are entered by name; to leave a place leads back to where it was entered from. -/
structure Terrain (Place : Type) where
  enter : Place → String → Place
  leave : Place → Place
  leave_enter : ∀ place name, leave (enter place name) = place

namespace Terrain

variable {Place : Type} (terrain : Terrain Place)

def step (place : Place) (segment : String) : Place :=
  if segment = "" ∨ segment = "." then place
  else if segment = ".." then terrain.leave place
  else terrain.enter place segment

def walk (place : Place) (segments : List String) : Place :=
  segments.foldl terrain.step place

/-- The places are the ways to them, innermost name first. -/
def free : Terrain (List String) where
  enter place name := name :: place
  leave place := place.tail
  leave_enter _ _ := rfl

theorem step_name {segment : String} (name : isName segment = true) (place : Place) :
    terrain.step place segment = terrain.enter place segment := by
  obtain ⟨some, notDot, notUp⟩ := isName_iff.1 name
  simp [step, some, notDot, notUp]

/-- The trail that is left in the end leads from any place to where the segments lead. -/
theorem walk_of_follow? {trail segments final : List String}
    (named : ∀ segment ∈ trail, isName segment = true)
    (followed : follow? trail segments = some final) (place : Place) :
    terrain.walk (terrain.walk place trail.reverse) segments = terrain.walk place final.reverse := by
  fun_induction follow? trail segments with
  | case1 trail =>
    cases followed
    rfl
  | case2 trail segment rest idle ih =>
    have stays : ∀ here, terrain.step here segment = here := fun here =>
      if_pos (by simpa using idle)
    rw [walk, List.foldl_cons, stays]
    exact ih named followed
  | case3 rest _ => cases followed
  | case4 rest name above _ ih =>
    -- The last name was entered last, so leaving takes just that name back.
    obtain ⟨nameLeads, aboveNamed⟩ := List.forall_mem_cons.1 named
    have back : terrain.step (terrain.walk place (name :: above).reverse) ".."
        = terrain.walk place above.reverse := by
      rw [walk, List.reverse_cons, List.foldl_append, List.foldl_cons, List.foldl_nil,
        terrain.step_name nameLeads]
      exact terrain.leave_enter _ name
    rw [walk, List.foldl_cons, back]
    exact ih aboveNamed followed
  | case5 trail segment rest idle up ih =>
    have name : isName segment = true := by simp_all [isName]
    have on : terrain.step (terrain.walk place trail.reverse) segment
        = terrain.walk place (segment :: trail).reverse := by
      rw [walk, walk, List.reverse_cons, List.foldl_append, List.foldl_cons, List.foldl_nil]
    rw [walk, List.foldl_cons, on]
    exact ih (List.forall_mem_cons.2 ⟨name, named⟩) followed

theorem walk_split_intercalate {names : List String} (named : Names names) (place : Place) :
    terrain.walk place (split '/' ("/".intercalate names)) = terrain.walk place names := by
  rcases named.split_intercalate with ⟨rfl, cut⟩ | cut
  · rw [cut]
    rfl
  · rw [cut]

theorem free_walk_names {names : List String} (named : Names names) (place : List String) :
    free.walk place names = names.reverse ++ place := by
  induction names generalizing place with
  | nil => rfl
  | cons name rest ih =>
    obtain ⟨⟨here, -⟩, later⟩ := List.forall_mem_cons.1 named
    rw [walk, List.foldl_cons, step_name _ here, List.reverse_cons, List.append_assoc]
    exact ih later _

end Terrain

/-- Two paths lead to the same place, wherever they are followed from. -/
def SameLocation (path other : String) : Prop :=
  ∀ (Place : Type) (terrain : Terrain Place) (place : Place),
    terrain.walk place (split '/' path) = terrain.walk place (split '/' other)

theorem sameLocation_of_normalize? {path normal : String} (read : normalize? path = some normal) :
    SameLocation path normal := by
  intro Place terrain place
  obtain ⟨trail, followed, rfl⟩ := Option.map_eq_some_iff.1 read
  have names : Names trail.reverse := fun segment member =>
    names_of_follow? (by simp [Names]) (fun _ inside => notMem_of_mem_split inside) followed segment
      (List.mem_reverse.1 member)
  rw [terrain.walk_split_intercalate names]
  exact terrain.walk_of_follow? (by simp) followed place

/-- Different normal paths lead to different places. -/
theorem IsNormal.eq_of_sameLocation {path other : String} (normal : IsNormal path)
    (otherNormal : IsNormal other) (same : SameLocation path other) : path = other := by
  obtain ⟨names, named, rfl⟩ := normal.exists_names
  obtain ⟨otherNames, otherNamed, rfl⟩ := otherNormal.exists_names
  have ways := same (List String) .free []
  rw [Terrain.walk_split_intercalate _ named, Terrain.walk_split_intercalate _ otherNamed,
    Terrain.free_walk_names named, Terrain.free_walk_names otherNamed] at ways
  have sameNames : names = otherNames := List.reverse_injective (by simpa using ways)
  rw [sameNames]

/-- The normal form is the one normal path to where a path leads. -/
theorem normalize?_eq_some_iff {path normal : String} :
    normalize? path = some normal ↔
      ¬ Escapes (split '/' path) ∧ IsNormal normal ∧ SameLocation path normal := by
  rw [← normalize?_eq_none_iff]
  constructor
  · intro read
    exact ⟨by simp [read], isNormal_of_normalize? read, sameLocation_of_normalize? read⟩
  · rintro ⟨stays, isNormal, same⟩
    obtain ⟨found, read⟩ := Option.ne_none_iff_exists'.1 stays
    have alike : SameLocation found normal := fun Place terrain place =>
      (sameLocation_of_normalize? read Place terrain place).symm.trans (same Place terrain place)
    rw [read, (isNormal_of_normalize? read).eq_of_sameLocation isNormal alike]

/-! ## Specifiers -/

/-- What stands before the last slash of a file's path has all its segments but the last. -/
theorem cutLast?_slash (file : String) :
    cutLast? '/' file = none ∧ (split '/' file).dropLast = [] ∨
      ∃ directory name, cutLast? '/' file = some (directory, name) ∧
        (split '/' file).dropLast = split '/' directory := by
  by_cases slash : '/' ∈ file.toList
  · obtain ⟨before, after, whole, free⟩ := exists_last_mark slash
    refine .inr ⟨String.ofList before, String.ofList after, ?_, ?_⟩
    · simp [cutLast?, whole, cutLastChars?_append_cons free]
    · simp [split, whole, splitChars_append_cons, splitChars_of_notMem free]
  · refine .inl ⟨?_, ?_⟩
    · simp [cutLast?, cutLastChars?_eq_none_iff.2 slash]
    · simp [split, splitChars_of_notMem slash]

theorem spelled_eq (specifier importer : String) :
    spelled specifier importer = if isRelative specifier then
        "/".intercalate ((split '/' importer).dropLast ++ split '/' specifier)
      else trimStartOf '/' specifier := by
  rw [spelled]
  split
  next =>
    rcases cutLast?_slash importer with ⟨cut, noDirectory⟩ | ⟨directory, name, cut, segments⟩
    · rw [cut, noDirectory, List.nil_append, intercalate_split_slash]
    · rw [cut, segments, ← split_slash_append, intercalate_split_slash]
  next => rfl

/-- The first path of a list that is a file. -/
def FirstFile (files paths : List String) (file : String) : Prop :=
  file ∈ files ∧ ∃ earlier later, paths = earlier ++ file :: later ∧ ∀ path ∈ earlier, path ∉ files

theorem resolve?_eq_some_iff {files : List String} {specifier importer file : String} :
    resolve? files specifier importer = some file ↔
      ∃ base, normalize? (spelled specifier importer) = some base ∧
        FirstFile files (candidates base) file := by
  simp only [resolve?, Option.bind_eq_bind, Option.bind_eq_some_iff,
    List.find?_eq_some_iff_append, FirstFile, Bool.not_eq_true', List.contains_eq_mem,
    decide_eq_true_eq, decide_eq_false_iff_not]

/-- Probing is exact.  A path has no normal form just if it leads above the root on its way; else its
    normal form is the one path without empty, `.` and `..` segments that leads to the same place,
    and a second time nothing changes.  A specifier stands for the first file among the probes of the
    normal form of what it spells: as it is, with each extension, and as a directory with an index of
    each extension. -/
theorem resolve?_probes_normal_form (files : List String) (specifier importer : String) :
    (∀ path, normalize? path = none ↔ Escapes (split '/' path)) ∧
    (∀ path normal, normalize? path = some normal ↔
      ¬ Escapes (split '/' path) ∧ IsNormal normal ∧ SameLocation path normal) ∧
    (∀ path normal, normalize? path = some normal → normalize? normal = some normal) ∧
    (∀ file, resolve? files specifier importer = some file ↔ ∃ base,
      normalize? (if isRelative specifier then
          "/".intercalate ((split '/' importer).dropLast ++ split '/' specifier)
        else trimStartOf '/' specifier) = some base ∧
      FirstFile files (base :: (sourceExtensions.map fun extension => base ++ "." ++ extension)
        ++ sourceExtensions.map fun extension =>
          if base = "" then "index." ++ extension else base ++ "/index." ++ extension) file) ∧
    ∀ file, resolve? files specifier importer = some file → file ∈ files := by
  refine ⟨fun path => normalize?_eq_none_iff, fun path normal => normalize?_eq_some_iff,
    fun path normal read => (isNormal_of_normalize? read).normalize?, fun file => ?_,
    fun file found => ?_⟩
  · rw [← spelled_eq]
    exact resolve?_eq_some_iff
  · obtain ⟨base, -, member, -⟩ := resolve?_eq_some_iff.1 found
    exact member

end LoadBearing.Scope
