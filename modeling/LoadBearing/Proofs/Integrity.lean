import Mathlib.Data.List.Forall2
import LoadBearing.Proofs.Identity

/-! # The calls of a built graph refer to its routines

Every call site inside a definition becomes one call, in the order of files and sites, and the call
leads from the definition around the site to a routine of the same graph or is marked as unknown.

A target can come out of two indices, each filled from two sources.  `Refers` says once what all of
them have in common: they hold nothing but identities of the given routines.
-/

namespace LoadBearing

/-! ## Indices -/

namespace Scope.Symbols

/-- Both indices are ordered and name nothing but the given identities. -/
structure Refers (ids : List String) (s : Symbols) : Prop where
  orderedNames : s.byName.Ordered
  orderedExports : s.exports.Ordered
  names : ∀ {name entries}, s.byName.find? name = some entries → ∀ entry ∈ entries, entry.2 ∈ ids
  exports : ∀ {key id}, s.exports.find? key = some id → id ∈ ids

variable {ids : List String} {s : Symbols}

theorem refers_empty (ids : List String) : Refers ids {} :=
  ⟨Table.ordered_nil, Table.ordered_nil, (nomatch ·), (nomatch ·)⟩

theorem mem_of_find?_insertNew {table : Table String} (ordered : table.Ordered)
    (known : ∀ {key id}, table.find? key = some id → id ∈ ids) {new : String} (newKnown : new ∈ ids)
    {key other id : String} (found : (table.insertNew key new).find? other = some id) :
    id ∈ ids := by
  rw [Table.find?_insertNew ordered] at found
  split at found
  next same =>
    cases stored : table.find? key with
    | none => rw [stored] at found; cases found; exact newKnown
    | some old => rw [stored] at found; cases found; exact known stored
  next => exact known found

theorem Refers.enter (refers : Refers ids s) {r : Routine} (known : r.id ∈ ids) :
    Refers ids (s.enter r) := by
  -- A member is entered twice: under its name and under its qualified name.
  have ordered := refers.orderedExports.insertNew (exportKey r.file r.name) r.id
  refine ⟨refers.orderedNames.update _ _, ?_, fun {name entries} found entry member => ?_,
    fun {key id} found => ?_⟩
  · rw [Symbols.enter]
    split
    · exact ordered.insertNew _ _
    · exact ordered
  · rw [Symbols.enter, Table.find?_update refers.orderedNames] at found
    split at found
    next same =>
      cases found
      rcases List.mem_append.1 member with earlier | last
      · cases stored : s.byName.find? r.name with
        | none => rw [stored] at earlier; cases earlier
        | some entries => rw [stored] at earlier; exact refers.names stored entry earlier
      · rw [List.mem_singleton.1 last]
        exact known
    next => exact refers.names found entry member
  · rw [Symbols.enter] at found
    simp only at found
    split at found
    · exact mem_of_find?_insertNew ordered
        (mem_of_find?_insertNew refers.orderedExports refers.exports known) known found
    · exact mem_of_find?_insertNew refers.orderedExports refers.exports known found

theorem Refers.bindDefault (refers : Refers ids s) {entry : String × String}
    (known : entry.2 ∈ ids) : Refers ids (s.bindDefault entry) := by
  refine ⟨refers.orderedNames, refers.orderedExports.insert _ _, refers.names,
    fun {key id} found => ?_⟩
  rw [Symbols.bindDefault, Table.find?_insert] at found
  split at found
  · cases found; exact known
  · exact refers.exports found

theorem refers_build {routines : List Routine} {defaults : Table String}
    (known : ∀ r ∈ routines, r.id ∈ ids) (defaultsKnown : ∀ entry ∈ defaults, entry.2 ∈ ids) :
    Refers ids (Symbols.build routines defaults) := by
  rw [Symbols.build]
  refine List.foldlRecOn defaults _ ?_ fun s refers entry member =>
    refers.bindDefault (defaultsKnown entry member)
  exact List.foldlRecOn routines _ (refers_empty ids) fun s refers r member =>
    refers.enter (known r member)

/-! ## Rules -/

theorem Refers.through? (refers : Refers ids s) {binding : Import} {name id : String}
    (found : s.through? binding name = some id) : id ∈ ids := by
  obtain ⟨file, -, exported⟩ := Option.bind_eq_some_iff.1 found
  exact refers.exports exported

theorem Refers.only? (refers : Refers ids s) {name : String} {inFile : Option String} {id : String}
    (found : s.only? name inFile = some id) : id ∈ ids := by
  rw [Symbols.only?] at found
  split at found
  next entry single =>
    cases found
    have member : entry ∈ (s.byName.find? name).getD [] :=
      List.mem_of_mem_filter (single ▸ List.mem_singleton_self entry)
    cases stored : s.byName.find? name with
    | none => rw [stored] at member; cases member
    | some entries => rw [stored] at member; exact refers.names stored entry member
  next => cases found

theorem Refers.attempt? (refers : Refers ids s) {q : Query} {rule : Rule} {id : String}
    (found : s.attempt? q rule = some id) : id ∈ ids := by
  cases rule with
  | imported =>
    rw [Symbols.attempt?, viaImport?] at found
    split at found
    · cases found
    · obtain ⟨binding, -, found⟩ := Option.bind_eq_some_iff.1 found
      split at found
      · cases found
      · exact refers.through? found
  | member =>
    obtain ⟨receiver, -, found⟩ := Option.bind_eq_some_iff.1 found
    obtain ⟨binding, -, found⟩ := Option.bind_eq_some_iff.1 found
    split at found
    · exact refers.through? found
    · cases found
  | sameFile => exact refers.only? found
  | unique =>
    rw [Symbols.attempt?] at found
    split at found
    · cases found
    · exact refers.only? found

theorem Refers.resolve? (refers : Refers ids s) {q : Query} {found : Resolution}
    (resolved : s.resolve? q = some found) : found.target ∈ ids := by
  obtain ⟨rule, -, attempt⟩ := List.exists_of_findSome?_eq_some resolved
  obtain ⟨target, succeeded, rfl⟩ := Option.map_eq_some_iff.1 attempt
  exact refers.attempt? succeeded

end Scope.Symbols

namespace CallGraph

theorem NamedOutline.default?_mem {n : NamedOutline} {id : String} (found : n.default? = some id) :
    id ∈ n.ids := by
  rw [NamedOutline.default?] at found
  split at found
  · exact List.mem_of_getElem? found
  · exact List.mem_of_head? found

/-- A default export is one of the identities of its file. -/
theorem exists_of_mem_defaultExports {named : List NamedOutline} {entry : String × String}
    (member : entry ∈ defaultExports named) :
    ∃ n ∈ named, n.outline.file = entry.1 ∧ entry.2 ∈ n.ids := by
  -- Being an entry says nothing about a fold, so the invariant speaks about look-ups.
  have invariant : (defaultExports named).Ordered ∧
      ∀ file id, (defaultExports named).find? file = some id →
        ∃ n ∈ named, n.outline.file = file ∧ id ∈ n.ids := by
    rw [defaultExports]
    refine List.foldlRecOn (motive := fun table : Table String => table.Ordered ∧
      ∀ file id, table.find? file = some id → ∃ n ∈ named, n.outline.file = file ∧ id ∈ n.ids)
      named _ ⟨Table.ordered_nil, fun _ _ => (nomatch ·)⟩ ?_
    rintro table ⟨ordered, known⟩ n inNamed
    split
    next id found =>
      refine ⟨ordered.insert _ _, fun file stored lookup => ?_⟩
      rw [Table.find?_insert] at lookup
      split at lookup
      next same =>
        cases lookup
        exact ⟨n, inNamed, same.symm, NamedOutline.default?_mem found⟩
      next => exact known file stored lookup
    next => exact ⟨ordered, known⟩
  exact invariant.2 entry.1 entry.2 (invariant.1.find?_of_mem member)

theorem mem_defaultExports {named : List NamedOutline} {entry : String × String}
    (member : entry ∈ defaultExports named) : entry.2 ∈ named.flatMap (·.ids) := by
  obtain ⟨n, inNamed, -, known⟩ := exists_of_mem_defaultExports member
  exact List.mem_flatMap.2 ⟨n, inNamed, known⟩

/-! ## Calls -/

/-- A call that leads to a routine of the graph, with the rule that found it, and crosses exactly if
    the graph gives its ends different modules. -/
def KnownIn (g : CallGraph) (c : Call) : Prop :=
  c.resolved = true ∧ c.rule.isSome = true ∧
    ∃ target here there, c.target = some target ∧ target ∈ g.routines.map Routine.id ∧
      g.home? c.source = some here ∧ g.home? target = some there ∧
      (c.crosses = true ↔ here ≠ there)

def Unknown (c : Call) : Prop :=
  c.resolved = false ∧ c.target = none ∧ c.rule = none ∧ c.crosses = false

/-- What a call has to say about the site it comes from. -/
structure Records (g : CallGraph) (n : NamedOutline) (site : Site) (c : Call) : Prop where
  /-- it leaves the routine of the definition around the site -/
  source : n.ids[site.caller]? = some c.source ∧ ∃ d, n.outline.definitions[site.caller]? = some d ∧
    Routine.ofDefinition c.source n.outline.file d ∈ g.routines
  name : c.name = site.name
  receiver : c.receiver = site.receiver
  file : c.file = n.outline.file
  line : c.line = site.line
  outcome : KnownIn g c ∨ Unknown c

def attributed (named : List NamedOutline) : List (NamedOutline × Site) :=
  named.flatMap fun n =>
    (n.outline.sites.filter fun site => site.caller < n.outline.definitions.length).map (n, ·)

/-- A filter and a partial map that agree on what is kept run in step. -/
theorem forall₂_filterMap {α β γ : Type} {pair : α → γ} {keep : α → Bool} {f : α → Option β}
    {rel : γ → β → Prop} {items : List α}
    (kept : ∀ item ∈ items, keep item = true →
      ∃ result, f item = some result ∧ rel (pair item) result)
    (dropped : ∀ item ∈ items, keep item = false → f item = none) :
    List.Forall₂ rel ((items.filter keep).map pair) (items.filterMap f) := by
  induction items with
  | nil => exact .nil
  | cons item rest ih =>
    have tail := ih (fun other member => kept other (List.mem_cons_of_mem _ member))
      (fun other member => dropped other (List.mem_cons_of_mem _ member))
    cases keeps : keep item with
    | true =>
      obtain ⟨result, found, related⟩ := kept item List.mem_cons_self keeps
      rw [List.filter_cons_of_pos keeps, List.filterMap_cons_some found]
      exact .cons related tail
    | false =>
      rw [List.filter_cons_of_neg (by simp [keeps]),
        List.filterMap_cons_none (dropped item List.mem_cons_self keeps)]
      exact tail

theorem forall₂_flatMap {α β γ : Type} {rel : β → γ → Prop} {left : α → List β}
    {right : α → List γ} {items : List α}
    (each : ∀ item ∈ items, List.Forall₂ rel (left item) (right item)) :
    List.Forall₂ rel (items.flatMap left) (items.flatMap right) := by
  induction items with
  | nil => exact .nil
  | cons item rest ih =>
    rw [List.flatMap_cons, List.flatMap_cons]
    exact List.rel_append (each item List.mem_cons_self)
      (ih fun other member => each other (List.mem_cons_of_mem _ member))

/-- The identities of a built graph are those given to the definitions, and they are unique. -/
theorem map_id_flatMap_routines {outlines : List Outline} :
    ((nameFiles [] outlines).flatMap NamedOutline.routines).map Routine.id
      = (nameFiles [] outlines).flatMap (·.ids) := by
  rw [List.map_flatMap]
  exact List.flatMap_congr fun n member => map_id_routines (length_ids member)

theorem map_id_build (outlines : List Outline) : (build outlines).routines.map Routine.id
    = (nameFiles [] (Outline.sortByFile outlines)).flatMap (·.ids) :=
  map_id_flatMap_routines

theorem nodup_ids_build (outlines : List Outline) :
    ((build outlines).routines.map Routine.id).Nodup := by
  rw [map_id_build]
  exact (nodup_nameFiles [] _).1

theorem ofDefinition_mem_routines {n : NamedOutline} {position : Nat} {id : String} {d : Definition}
    (named : n.ids[position]? = some id) (defined : n.outline.definitions[position]? = some d) :
    Routine.ofDefinition id n.outline.file d ∈ n.routines := by
  refine List.mem_of_getElem? (i := position) ?_
  rw [NamedOutline.routines, List.getElem?_zipWith, named, defined]

theorem file_of_mem_routines {n : NamedOutline} {r : Routine} (member : r ∈ n.routines) :
    r.file = n.outline.file := by
  rw [NamedOutline.routines, ← List.map_uncurry_zip_eq_zipWith] at member
  obtain ⟨pair, -, rfl⟩ := List.mem_map.1 member
  rfl

theorem resolveSite?_eq_none {symbols : Scope.Symbols} {homes : Table String}
    {imports : Table Import} {n : NamedOutline} {site : Site} (stray : n.ids[site.caller]? = none) :
    resolveSite? symbols homes imports n site = none := by
  rw [resolveSite?, stray]
  rfl

section Resolution

variable {routines : List Routine} {symbols : Scope.Symbols} {n : NamedOutline} {site : Site}

theorem resolveSite?_of_some {homes : Table String} {imports : Table Import} {source : String}
    (named : n.ids[site.caller]? = some source) {found : Scope.Resolution}
    (resolved : symbols.resolve? ⟨n.outline.file, site.name, site.receiver, imports⟩ = some found) :
    resolveSite? symbols homes imports n site
      = some (Call.known source found.target site.name site.receiver n.outline.file site.line
          (homes.find? source ≠ homes.find? found.target) found.rule) := by
  rw [resolveSite?, named]
  simp only [Option.bind_eq_bind, Option.bind_some, resolved]

theorem resolveSite?_of_none {homes : Table String} {imports : Table Import} {source : String}
    (named : n.ids[site.caller]? = some source)
    (unresolved : symbols.resolve? ⟨n.outline.file, site.name, site.receiver, imports⟩ = none) :
    resolveSite? symbols homes imports n site
      = some (Call.unknown source site.name site.receiver n.outline.file site.line) := by
  rw [resolveSite?, named]
  simp only [Option.bind_eq_bind, Option.bind_some, unresolved]

theorem exists_resolveSite? (unique : (routines.map Routine.id).Nodup)
    (refers : symbols.Refers (routines.map Routine.id)) (sub : ∀ r ∈ n.routines, r ∈ routines)
    (named : n.ids.length = n.outline.definitions.length)
    (inside : site.caller < n.outline.definitions.length) (imports : Table Import)
    (calls : List Call) :
    ∃ c, resolveSite? symbols (homes routines) imports n site = some c ∧
      Records (ofParts routines calls) n site c := by
  obtain ⟨source, sourceId⟩ : ∃ source, n.ids[site.caller]? = some source :=
    ⟨_, List.getElem?_eq_getElem (named ▸ inside)⟩
  have defined := List.getElem?_eq_getElem inside
  have sourceMember := sub _ (ofDefinition_mem_routines sourceId defined)
  have sourceHome := home?_of_mem unique sourceMember calls
  have sourceFound := find?_homes unique sourceMember
  have sourceRecorded : n.ids[site.caller]? = some source ∧
      ∃ d, n.outline.definitions[site.caller]? = some d ∧
        Routine.ofDefinition source n.outline.file d ∈ routines :=
    ⟨sourceId, _, defined, sourceMember⟩
  cases resolved : symbols.resolve? ⟨n.outline.file, site.name, site.receiver, imports⟩ with
  | none =>
    exact ⟨_, resolveSite?_of_none sourceId resolved, sourceRecorded, rfl, rfl, rfl, rfl,
      .inr ⟨rfl, rfl, rfl, rfl⟩⟩
  | some found =>
    obtain ⟨target, targetMember, targetId⟩ := List.mem_map.1 (refers.resolve? resolved)
    have targetHome := home?_of_mem unique targetMember calls
    have targetFound := find?_homes unique targetMember
    rw [targetId] at targetHome targetFound
    refine ⟨_, resolveSite?_of_some sourceId resolved, sourceRecorded, rfl, rfl, rfl, rfl, ?_⟩
    refine .inl ⟨rfl, rfl, found.target, _, _, rfl, refers.resolve? resolved, sourceHome,
      targetHome, ?_⟩
    -- The flag compares what `homes` says, which is what the graph says because ids are unique.
    change decide ((homes routines).find? source ≠ (homes routines).find? found.target) = true ↔ _
    have sourceLookup : (homes routines).find? source = some _ := sourceFound
    rw [sourceLookup, targetFound, decide_eq_true_iff, Ne, Option.some.injEq]

end Resolution

/-- The calls of a built graph are in step with the sites inside definitions, in the order of the
    files, and each call refers to routines of the graph. -/
theorem build_calls_record_sites (outlines : List Outline) :
    let g := build outlines
    let named := nameFiles [] (Outline.sortByFile outlines)
    (named.map (·.outline) = Outline.sortByFile outlines ∧
      (Outline.sortByFile outlines).Perm outlines ∧
      (Outline.sortByFile outlines).Pairwise fun left right => left.file ≤ right.file) ∧
    (g.routines = named.flatMap NamedOutline.routines ∧ (g.routines.map Routine.id).Nodup ∧
      ∀ n ∈ named, n.routines.map Routine.id = n.ids) ∧
    List.Forall₂ (fun entry c => Records g entry.1 entry.2 c) (attributed named) g.calls := by
  intro g named
  have ids : g.routines.map Routine.id = named.flatMap (·.ids) := map_id_flatMap_routines
  have unique : (g.routines.map Routine.id).Nodup := ids ▸ (nodup_nameFiles [] _).1
  have refers : (Scope.Symbols.build g.routines (defaultExports named)).Refers
      (g.routines.map Routine.id) :=
    Scope.Symbols.refers_build (fun r member => List.mem_map_of_mem member)
      fun entry member => ids ▸ mem_defaultExports member
  refine ⟨⟨map_outline_nameFiles [] _, List.mergeSort_perm _ _,
      pairwise_mergeSort_textLe Outline.file outlines⟩,
    ⟨rfl, unique, fun n member => map_id_routines (length_ids member)⟩, ?_⟩
  refine forall₂_flatMap fun n member => ?_
  have named := length_ids member
  have sub : ∀ r ∈ n.routines, r ∈ g.routines :=
    fun r inFile => List.mem_flatMap.2 ⟨n, member, inFile⟩
  refine forall₂_filterMap (fun site _ inside => ?_) fun site _ outside => ?_
  · exact exists_resolveSite? unique refers sub named (by simpa using inside) _ _
  · -- There are as many identities as definitions, so a stray caller has none.
    refine resolveSite?_eq_none (List.getElem?_eq_none ?_)
    simp only [decide_eq_false_iff_not] at outside
    omega

end CallGraph

end LoadBearing
