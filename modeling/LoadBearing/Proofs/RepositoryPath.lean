import LoadBearing.Proofs.Segments
import LoadBearing.Proofs.Table
import LoadBearing.History.PathIndex

/-! # What a path of a commit stands for

A `PathIndex` knows a file by up to three ways to write its path, and all files share one table.
Files are added in increasing order and each overwrites what it shares with the ones before, so a
path stands for the last file that goes by it.

The path of a file in the repository therefore leads back to the file unless a later file goes by
that path too.  Below an absolute repository, and with paths that are written plainly, only one file
can come in between: the one whose path in the graph is that very text.
-/

namespace LoadBearing.PathIndex

open LoadBearing.Text LoadBearing.Path

variable {g : CallGraph} {analysed repository : String}

/-! ## The ways a file goes by -/

def ways (analysed repository file : String) : List String :=
  [key (join analysed file), file] ++ ((tailBelow? repository (join analysed file)).map key).toList

theorem find?_add (analysed repository : String) (known : Table String) (file path : String) :
    (add analysed repository known file).find? path
      = if path ∈ ways analysed repository file then some file else known.find? path := by
  cases below : tailBelow? repository (join analysed file) with
  | none =>
    simp only [add, ways, below, Table.find?_insert]
    grind
  | some tail =>
    simp only [add, ways, below, Table.find?_insert]
    grind

theorem find?_build (g : CallGraph) (analysed repository path : String) :
    (build g analysed repository).known.find? path
      = (g.files.filter (path ∈ ways analysed repository ·)).getLast? := by
  simp only [build]
  induction g.files using List.reverseRecOn with
  | nil => rfl
  | append_singleton files last ih =>
    rw [List.foldl_append, List.foldl_cons, List.foldl_nil, find?_add, List.filter_append]
    by_cases goes : path ∈ ways analysed repository last <;> simp [goes, ih]

/-- The last name of an ordered roster is the one that no name exceeds. -/
theorem getLast?_eq_some_iff {names : List String} (ordered : Roster.Ordered names)
    {name : String} :
    names.getLast? = some name ↔ name ∈ names ∧ ∀ later ∈ names, ¬ name < later := by
  induction names using List.reverseRecOn with
  | nil => simp
  | append_singleton rest last ih =>
    obtain ⟨-, -, below⟩ := List.pairwise_append.1 ordered
    have smaller : ∀ other ∈ rest, other < last := fun other member =>
      below other member last (by simp)
    rw [List.getLast?_concat, Option.some.injEq]
    constructor
    · rintro rfl
      refine ⟨by simp, fun later member above => ?_⟩
      cases List.mem_append.1 member with
      | inl earlier => exact lt_asymm above (smaller later earlier)
      | inr same => exact lt_irrefl _ (List.mem_singleton.1 same ▸ above)
    · rintro ⟨member, greatest⟩
      cases List.mem_append.1 member with
      | inl earlier => exact absurd (smaller name earlier) (greatest last (by simp))
      | inr same => exact (List.mem_singleton.1 same).symm

/-- A path that some file goes by stands for the last file that goes by it. -/
theorem resolve?_eq_some_iff {rel path : String} (member : rel ∈ g.files)
    (goes : path ∈ ways analysed repository rel) {file : String} :
    resolve? (build g analysed repository) path = some file ↔
      file ∈ g.files ∧ path ∈ ways analysed repository file ∧
        ∀ later ∈ g.files, file < later → path ∉ ways analysed repository later := by
  have last := find?_build g analysed repository path
  have ordered : Roster.Ordered (g.files.filter (path ∈ ways analysed repository ·)) :=
    (Roster.ordered_ofList _).filter _
  cases found : (build g analysed repository).known.find? path with
  | none =>
    rw [found, eq_comm, List.getLast?_eq_none_iff, List.filter_eq_nil_iff] at last
    exact absurd (decide_eq_true goes) (last rel member)
  | some owner =>
    rw [found, eq_comm] at last
    simp only [resolve?, found]
    rw [← last, getLast?_eq_some_iff ordered]
    simp only [List.mem_filter, decide_eq_true_eq]
    grind

/-! ## Paths that are written plainly -/

theorem key_of_notMem {path : String} (free : '\\' ∉ path.toList) : key path = path := by
  have same : path.toList.map (fun c => if c = '\\' then '/' else c) = path.toList.map id :=
    List.map_congr_left fun c member => if_neg fun (backslash : c = '\\') =>
      free (backslash ▸ member)
  rw [key, same, List.map_id, String.ofList_toList]

theorem startsWith_key {path : String} (absolute : startsWith path "/" = true) :
    startsWith (key path) "/" = true := by
  obtain ⟨rest, whole⟩ := List.isPrefixOf_iff_prefix.1 absolute
  simp [startsWith, key, ← whole]

/-- A path without backslashes that has nothing but steps between its slashes. -/
def Plain (path : String) : Prop :=
  '\\' ∉ path.toList ∧ ∀ segment ∈ split '/' path, isStep segment = true

instance (path : String) : Decidable (Plain path) :=
  inferInstanceAs (Decidable (_ ∧ _))

theorem Plain.relative {path : String} (plain : Plain path) : startsWith path "/" = false := by
  have steps : (split '/' path).head? ≠ some "" := fun first =>
    absurd (plain.2 "" (List.mem_of_head? first)) (by decide)
  have named : path ≠ "" := by
    rintro rfl
    exact steps rfl
  rwa [Bool.eq_false_iff, ne_eq, startsWith_slash_iff named]

theorem mem_toList_intercalate {segments : List String} {c : Char} (other : c ≠ '/') :
    c ∈ ("/".intercalate segments).toList ↔ ∃ segment ∈ segments, c ∈ segment.toList := by
  induction segments with
  | nil => simp
  | cons segment rest ih =>
    cases rest with
    | nil => simp
    | cons next others =>
      rw [String.intercalate_cons_cons, String.toList_append, String.toList_append,
        List.mem_append, List.mem_append, ih]
      simp [other]

/-- Below a repository around the analysed directory, one lead is put before every plain path. -/
theorem exists_lead (outside : repository ≠ "")
    (inside : components repository <+: components analysed) :
    ∃ lead : List String, (∀ segment ∈ lead, '/' ∉ segment.toList) ∧
      ∀ file, Plain file →
        tailBelow? repository (join analysed file)
          = some ("/".intercalate (lead ++ split '/' file)) := by
  have named : analysed ≠ "" := by
    rintro rfl
    exact components_ne_nil outside (List.prefix_nil.1 inside)
  obtain ⟨front, some, outer, whole⟩ := exists_split_join named
  have free : ∀ segment ∈ front, '/' ∉ segment.toList := fun segment member =>
    notMem_of_mem_split (whole "" rfl ▸ List.mem_append_left _ member)
  refine ⟨dropSteps (stepsAbove repository front) front,
    fun segment member => free segment ((dropSteps_suffix _ _).subset member), ?_⟩
  intro file plain
  have below : components repository <+: components (join analysed file) := by
    rw [components_join named plain.relative]
    exact inside.trans (List.prefix_append _ _)
  have sameSteps : stepsAbove repository (front ++ split '/' file)
      = stepsAbove repository front := by
    rw [stepsAbove, opening_append some, stepsAbove]
  -- The path ends in a step, so nothing is cut off behind it.
  have untrimmed : uptoLastStep (front ++ split '/' file) = front ++ split '/' file := by
    rw [uptoLastStep, List.rdropWhile_eq_self_iff]
    intro _
    rw [List.getLast_append_of_ne_nil _ (split_ne_nil file)]
    simpa using plain.2 _ (List.getLast_mem _)
  have enough : stepsAbove repository front ≤ (front.filterMap ofSegment?).length := by
    have shorter := inside.length_le
    rw [outer, List.length_append] at shorter
    rw [stepsAbove]
    omega
  rw [tailBelow?_eq outside (join_ne_empty named plain.relative) below, whole file plain.relative,
    sameSteps, untrimmed,
    dropSteps_append enough fun first head => plain.2 first (List.mem_of_head? head)]

theorem startsWith_join {path : String} (absolute : startsWith analysed "/" = true)
    (relative : startsWith path "/" = false) : startsWith (join analysed path) "/" = true := by
  obtain ⟨rest, whole⟩ := List.isPrefixOf_iff_prefix.1 absolute
  simp only [join, relative, Bool.false_eq_true, ↓reduceIte]
  split <;> simp [startsWith, ← whole]

/-- Among plain paths, the path of a file in the repository is shared at most with the file that has
    it as its path in the graph. -/
theorem mem_ways_iff_of_plain (absolute : startsWith repository "/" = true)
    (inside : components repository <+: components analysed) {rel path : String}
    (plainRel : Plain rel) (below : tailBelow? repository (join analysed rel) = some path)
    (free : '\\' ∉ path.toList) {file : String} (plain : Plain file) :
    path ∈ ways analysed repository file ↔ file = path ∨ file = rel := by
  have outside : repository ≠ "" := by
    rintro rfl
    exact absurd absolute (by decide)
  have rooted : startsWith analysed "/" = true := by
    obtain ⟨rest, whole⟩ := inside
    rw [startsWith_slash_iff_head?] at absolute ⊢
    rw [← whole, List.head?_append, absolute]
    rfl
  obtain ⟨lead, apart, tail⟩ := exists_lead outside inside
  obtain rfl : "/".intercalate (lead ++ split '/' rel) = path := by
    simpa [below] using (tail rel plainRel).symm
  have cut : ∀ other, split '/' ("/".intercalate (lead ++ split '/' other))
      = lead ++ split '/' other := fun other =>
    split_intercalate_slash (by simp [split_ne_nil]) fun segment member =>
      (List.mem_append.1 member).elim (apart segment) notMem_of_mem_split
  -- The absolute path is no candidate, and the lead is the same for all files.
  have notAbsolute : "/".intercalate (lead ++ split '/' rel) ≠ key (join analysed file) := by
    intro same
    have relative := startsWith_of_tailBelow? outside below
    rw [same, startsWith_key (startsWith_join rooted plain.relative)] at relative
    cases relative
  have leadFree : ∀ segment ∈ lead, '\\' ∉ segment.toList := fun segment member backslash =>
    free ((mem_toList_intercalate (by decide)).2
      ⟨segment, List.mem_append_left _ member, backslash⟩)
  have tailFree : '\\' ∉ ("/".intercalate (lead ++ split '/' file)).toList := by
    rw [mem_toList_intercalate (by decide)]
    rintro ⟨segment, member, backslash⟩
    rcases List.mem_append.1 member with member | member
    · exact leadFree segment member backslash
    · apply plain.1
      rw [← intercalate_split_slash file, mem_toList_intercalate (by decide)]
      exact ⟨segment, member, backslash⟩
  have sameTail : "/".intercalate (lead ++ split '/' rel)
      = key ("/".intercalate (lead ++ split '/' file)) ↔ file = rel := by
    rw [key_of_notMem tailFree]
    refine ⟨fun same => ?_, fun same => by rw [same]⟩
    have segments := congrArg (split '/') same
    rw [cut, cut, List.append_cancel_left_eq] at segments
    rw [← intercalate_split_slash file, ← segments, intercalate_split_slash]
  simp only [ways, tail file plain, Option.map_some, Option.toList_some, List.cons_append,
    List.nil_append, List.mem_cons, List.not_mem_nil, or_false, notAbsolute, false_or, sameTail]
  rw [eq_comm]

/-! ## From the repository back to the graph -/

theorem components_prefix_join (inside : components repository <+: components analysed)
    {rel : String} (relative : startsWith rel "/" = false) :
    components repository <+: components (join analysed rel) := by
  by_cases named : analysed = ""
  · subst named
    rw [List.prefix_nil.1 inside]
    exact List.nil_prefix
  · rw [components_join named relative]
    exact inside.trans (List.prefix_append _ _)

/-- A file below the analysed directory has a path in the repository, which leads to it. -/
theorem exists_repositoryPath (inside : components repository <+: components analysed)
    {rel : String} (relative : startsWith rel "/" = false) :
    ∃ path, tailBelow? repository (join analysed rel) = some path ∧
      (repository ≠ "" → components (join repository path) = components (join analysed rel)) := by
  have prefixed := components_prefix_join inside relative
  by_cases outside : repository = ""
  · have found : (tailBelow? repository (join analysed rel)).isSome = true := by
      simp [tailBelow?, below?, List.isPrefixOf_iff_prefix.2 prefixed]
    obtain ⟨path, found⟩ := Option.isSome_iff_exists.1 found
    exact ⟨path, found, fun named => absurd outside named⟩
  · have named : analysed ≠ "" := by
      rintro rfl
      exact components_ne_nil outside (List.prefix_nil.1 inside)
    obtain ⟨path, found, -, same⟩ :=
      exists_tailBelow? outside (join_ne_empty named relative) prefixed
    exact ⟨path, found, fun _ => same⟩

theorem mem_ways_of_tailBelow? {rel path : String}
    (below : tailBelow? repository (join analysed rel) = some path)
    (written : '\\' ∉ path.toList ∨ path = rel) : path ∈ ways analysed repository rel := by
  cases written with
  | inl free => simp [ways, below, key_of_notMem free]
  | inr same => simp [ways, same]

/-- The path of a file in a repository around the analysed directory stands for that file unless a
    later file goes by it too.  With plain paths, that is the file with this path in the graph. -/
theorem resolve?_repositoryPath (inside : components repository <+: components analysed)
    {rel : String} (member : rel ∈ g.files) :
    (startsWith rel "/" = false → ∃ path, tailBelow? repository (join analysed rel) = some path ∧
      (repository ≠ "" → components (join repository path) = components (join analysed rel))) ∧
    ∀ path, tailBelow? repository (join analysed rel) = some path →
      ('\\' ∉ path.toList ∨ path = rel →
        (resolve? (build g analysed repository) path = some rel ↔
          ∀ later ∈ g.files, rel < later → path ∉ ways analysed repository later)) ∧
      (startsWith repository "/" = true → (∀ file ∈ g.files, Plain file) → '\\' ∉ path.toList →
        (resolve? (build g analysed repository) path = some rel ↔
          (path ∈ g.files → path ≤ rel))) := by
  refine ⟨exists_repositoryPath inside, fun path below => ?_⟩
  have direct : '\\' ∉ path.toList ∨ path = rel →
      (resolve? (build g analysed repository) path = some rel ↔
        ∀ later ∈ g.files, rel < later → path ∉ ways analysed repository later) := by
    intro written
    have goes := mem_ways_of_tailBelow? below written
    rw [resolve?_eq_some_iff member goes]
    simp [member, goes]
  refine ⟨direct, fun absolute plain free => ?_⟩
  rw [direct (.inl free)]
  have shared : ∀ later ∈ g.files, (path ∈ ways analysed repository later ↔
      later = path ∨ later = rel) := fun later among =>
    mem_ways_iff_of_plain absolute inside (plain rel member) below free (plain later among)
  constructor
  · intro alone among
    by_contra above
    exact alone path among (not_le.1 above) ((shared path among).2 (.inl rfl))
  · intro least later among above goes
    cases (shared later among).1 goes with
    | inl same => exact absurd (least (same ▸ among)) (not_le.2 (same ▸ above))
    | inr same => exact absurd above (same ▸ lt_irrefl later)

namespace Sample

/-- A repository whose directory `src` has a directory `src` of its own. -/
def graph : CallGraph :=
  .ofParts [.ofDefinition "a.js::f" "a.js" (.spanning "f" .function 1 1),
    .ofDefinition "src/a.js::g" "src/a.js" (.spanning "g" .function 1 1)] []

end Sample

open Sample

theorem resolve?_repositoryPath_nested :
    resolve? (build graph "/repo/src" "/repo") "src/src/a.js" = some "src/a.js" := by
  have inside : components "/repo" <+: components "/repo/src" := by decide
  have member : "src/a.js" ∈ graph.files := by decide
  have all := (resolve?_repositoryPath inside member).2 "src/src/a.js" (by decide)
  exact (all.2 (by decide) (by decide) (by decide)).2 fun shared => absurd shared (by decide)

/-- In the repository, `a.js` of the analysed directory is `src/a.js`; but that is how the graph
    writes another file, which comes later. -/
theorem repositoryPath_taken_by_another_file :
    "a.js" ∈ graph.files ∧ tailBelow? "/repo" (join "/repo/src" "a.js") = some "src/a.js" ∧
      resolve? (build graph "/repo/src" "/repo") "src/a.js" = some "src/a.js" := by
  decide

end LoadBearing.PathIndex
