import LoadBearing.Analysis
import LoadBearing.Proofs.Resolution

/-!
# The order in which files arrive

Files are read in any order and sorted by path before anything is made of them.  With one file to a
path the sorted list is determined by the files alone, so the outlines, the messages, the graph and
the report are the same whatever the order was.

One order remains after sorting: the default exports are bound one after another.  Their keys
differ, so that order leaves no trace in the indices either.
-/

namespace LoadBearing

/-! ## Sorting -/

theorem mergeSort_textLe_eq_of_perm {α : Type} (key : α → String) {items others : List α}
    (shuffled : items.Perm others)
    (told : ∀ one ∈ items, ∀ other ∈ items, key one = key other → one = other) :
    (items.mergeSort fun left right => textLe (key left) (key right))
      = others.mergeSort fun left right => textLe (key left) (key right) := by
  have sameItems : (items.mergeSort fun left right => textLe (key left) (key right)).Perm
      (others.mergeSort fun left right => textLe (key left) (key right)) :=
    ((List.mergeSort_perm _ _).trans shuffled).trans (List.mergeSort_perm _ _).symm
  apply sameItems.eq_of_pairwise _ (pairwise_mergeSort_textLe key items)
    (pairwise_mergeSort_textLe key others)
  intro one other inItems inOthers below above
  have oneMember : one ∈ items := List.mem_mergeSort.1 inItems
  have otherMember : other ∈ items := shuffled.mem_iff.2 (List.mem_mergeSort.1 inOthers)
  exact told one oneMember other otherMember (le_antisymm below above)

theorem Outline.sortByFile_eq_of_perm {outlines others : List Outline}
    (shuffled : outlines.Perm others) (distinct : (outlines.map Outline.file).Nodup) :
    sortByFile outlines = sortByFile others :=
  mergeSort_textLe_eq_of_perm Outline.file shuffled fun _ oneMember _ otherMember =>
    List.inj_on_of_nodup_map distinct oneMember otherMember

theorem CallGraph.build_eq_of_perm {outlines others : List Outline}
    (shuffled : outlines.Perm others) (distinct : (outlines.map Outline.file).Nodup) :
    build outlines = build others := by
  simp only [build, Outline.sortByFile_eq_of_perm shuffled distinct]

theorem Batch.collect_eq_of_perm {results others : List (String × Except ReadError Outline)}
    (shuffled : results.Perm others)
    (distinct : ((results.map outlineOf).map Outline.file).Nodup) :
    collect results = collect others := by
  have outlines := Outline.sortByFile_eq_of_perm (shuffled.map outlineOf) distinct
  have failures := mergeSort_textLe_eq_of_perm id (shuffled.filterMap failure?)
    fun _ _ _ _ same => same
  simp only [id_eq] at failures
  simp only [collect, outlines, failures]

/-! ## Reading -/

theorem Walk.file_visit (source : SourceText) (parent : String) (current : Option Nat) (n : Node)
    (w : Walk) : (w.visit source parent current n).outline.file = w.outline.file := by
  induction size : n.size using Nat.strongRecOn generalizing n parent current w with
  | ind bound ih =>
    -- Every step either keeps the file in plain sight or looks at smaller nodes.
    have parts : ∀ (inner : Node) (current : Option Nat) (parts : List (Part inner)) (w : Walk),
        inner.size ≤ n.size →
        (parts.foldl (fun w part => w.visit source part.parent current part.node) w).outline.file
          = w.outline.file := by
      intro inner current parts w small
      refine List.foldlRecOn (motive := fun later : Walk => later.outline.file = w.outline.file) parts _
        rfl fun later kept part _ => ?_
      have smaller : part.node.size < bound := size ▸ Nat.lt_of_lt_of_le part.size_lt small
      exact (ih _ smaller _ _ _ _ rfl).trans kept
    rw [Walk.visit]
    refine List.foldlRecOn (motive := fun later : Walk => later.outline.file = w.outline.file) _ _
      rfl fun later kept step _ => ?_
    cases step with
    | visit part => exact (ih _ (size ▸ part.size_lt) _ _ _ _ rfl).trans kept
    | define callable d isMember =>
      exact (parts _ _ _ _ callable.size_le).trans kept
    | enter name body => exact (parts _ _ _ _ le_rfl).trans kept
    | call name receiver line =>
      cases current with
      | none => exact kept
      | some caller => exact kept
    | branch =>
      cases current with
      | none => exact kept
      | some caller => exact kept
    | bind name binding => exact kept
    | exportDefault name => exact kept

theorem Outline.file_ofTree (file : String) (source : SourceText) (root : Node) :
    (ofTree file source root).file = file := by
  rw [ofTree]
  refine List.foldlRecOn (motive := fun w : Walk => w.outline.file = file) root.namedParts _ rfl
    fun w kept part _ => ?_
  exact (Walk.file_visit _ _ _ _ _).trans kept

/-- The outline of a file bears its path, whether or not the file can be read. -/
theorem Batch.file_outlineOf_ofFile (f : SourceFile) :
    (outlineOf (f.path, Outline.ofFile f)).file = f.path := by
  simp only [Outline.ofFile]
  cases Language.ofPath? f.path with
  | none => rfl
  | some language =>
    cases f.tree with
    | none => rfl
    | some root => exact Outline.file_ofTree _ _ _

theorem Batch.ofFiles_eq_of_perm {files others : List SourceFile} (shuffled : files.Perm others)
    (distinct : (files.map SourceFile.path).Nodup) : ofFiles files = ofFiles others := by
  apply collect_eq_of_perm (shuffled.map _)
  have paths : ((files.map fun f => (f.path, Outline.ofFile f)).map outlineOf).map Outline.file
      = files.map SourceFile.path := by
    simp only [List.map_map]
    exact List.map_congr_left fun f _ => file_outlineOf_ofFile f
  rw [paths]
  exact distinct

/-! ## Binding default exports -/

namespace Scope

theorem default?_eq_of_perm {defaults others : Table String} (shuffled : defaults.Perm others)
    (distinct : defaults.keys.Nodup) (key : String) :
    default? defaults key = default? others key := by
  have distinctOthers : others.keys.Nodup := (shuffled.map Prod.fst).nodup distinct
  apply Option.ext
  intro id
  rw [default?_eq_some_iff distinct, default?_eq_some_iff distinctOthers]
  simp only [shuffled.mem_iff]

namespace Symbols

theorem ordered_exports_build (routines : List Routine) (defaults : Table String) :
    (build routines defaults).exports.Ordered := by
  rw [build]
  refine List.foldlRecOn (motive := fun s : Symbols => s.exports.Ordered) defaults _ ?_
    fun s ordered entry _ => ordered.insert _ _
  exact List.foldlRecOn (motive := fun s : Symbols => s.exports.Ordered) routines _
    Table.ordered_nil fun s ordered r _ => ordered_exports_enter ordered r

/-- The indices do not tell in which order the default exports were bound. -/
theorem build_eq_of_perm (routines : List Routine) {defaults others : Table String}
    (shuffled : defaults.Perm others) (distinct : defaults.keys.Nodup) :
    build routines defaults = build routines others := by
  have distinctOthers : others.keys.Nodup := (shuffled.map Prod.fst).nodup distinct
  have names : (build routines defaults).byName = (build routines others).byName := by
    rw [build, build, byName_foldl_bindDefault, byName_foldl_bindDefault]
  have exports : (build routines defaults).exports = (build routines others).exports := by
    apply (ordered_exports_build routines defaults).ext (ordered_exports_build routines others)
    intro key
    rw [build, build, find?_exports_foldl_bindDefault distinct,
      find?_exports_foldl_bindDefault distinctOthers, default?_eq_of_perm shuffled distinct]
  cases left : build routines defaults
  cases right : build routines others
  simp_all

end Symbols

end Scope

theorem CallGraph.ordered_defaultExports (named : List NamedOutline) :
    (defaultExports named).Ordered := by
  apply Table.Ordered.foldl _ named Table.ordered_nil
  intro table n ordered
  split
  · exact ordered.insert _ _
  · exact ordered

/-! ## Any order -/

/-- Results for different paths give the same batch and the same graph in whatever order they
    arrive, also if the default exports are bound in another order, and hence files with different
    paths give the same report. -/
theorem arrival_order_leaves_no_trace {results others : List (String × Except ReadError Outline)}
    (shuffled : results.Perm others)
    (distinct : (results.map fun result => (Batch.outlineOf result).file).Nodup) :
    Batch.collect results = Batch.collect others ∧
    CallGraph.build (results.map Batch.outlineOf) = CallGraph.build (others.map Batch.outlineOf) ∧
    (let named := CallGraph.nameFiles [] (Batch.collect results).outlines
      ∀ bindings, (CallGraph.defaultExports named).Perm bindings →
        Scope.Symbols.build (named.flatMap CallGraph.NamedOutline.routines) bindings
          = Scope.Symbols.build (named.flatMap CallGraph.NamedOutline.routines)
              (CallGraph.defaultExports named)) ∧
    ∀ files reordered : List SourceFile, files.Perm reordered →
      (files.map SourceFile.path).Nodup → ∀ analysed history settings,
        Report.build analysed (Batch.ofFiles files) history settings
          = Report.build analysed (Batch.ofFiles reordered) history settings := by
  have distinctFiles : ((results.map Batch.outlineOf).map Outline.file).Nodup := by
    rw [List.map_map]
    exact distinct
  refine ⟨Batch.collect_eq_of_perm shuffled distinctFiles,
    CallGraph.build_eq_of_perm (shuffled.map _) distinctFiles, ?_, ?_⟩
  · intro named bindings reordered
    have keys : (CallGraph.defaultExports named).keys.Nodup :=
      (CallGraph.ordered_defaultExports named).imp ne_of_lt
    exact (Scope.Symbols.build_eq_of_perm _ reordered keys).symm
  · intro files reordered sameFiles paths analysed history settings
    rw [Batch.ofFiles_eq_of_perm sameFiles paths]

/-- A file that cannot be read may come before or after one that can. -/
theorem arrival_order_leaves_no_trace_unreadable :
    let unread : String × Except ReadError Outline := ("b.py", .error (.unsupported "py"))
    let run := Definition.spanning "run" .function 1 4
    let read : String × Except ReadError Outline := ("a.js", .ok { file := "a.js", definitions := [run] })
    [unread, read].Perm [read, unread] ∧
      ([unread, read].map fun result => (Batch.outlineOf result).file).Nodup ∧
      Batch.collect [unread, read] = Batch.collect [read, unread] ∧
      CallGraph.build ([unread, read].map Batch.outlineOf)
        = CallGraph.build ([read, unread].map Batch.outlineOf) := by
  intro unread run read
  have shuffled : [unread, read].Perm [read, unread] := List.Perm.swap _ _ _
  have distinct : ([unread, read].map fun result => (Batch.outlineOf result).file).Nodup := by
    decide
  obtain ⟨batch, graph, -⟩ := arrival_order_leaves_no_trace shuffled distinct
  exact ⟨shuffled, distinct, batch, graph⟩

end LoadBearing
