import LoadBearing.Analysis
import LoadBearing.Proofs.CallIndex
import LoadBearing.Proofs.Integrity
import LoadBearing.Proofs.LabelPropagation

/-! # The numbers of a report add up

The headline numbers come from the list of calls, the metrics from the indices, the counts of
archetypes from the findings and the sizes of clusters from the labels.  They agree because in a
built graph every identity stands for one routine and every end of a known call is one of them:
`WellBuilt` says this once, and each total is then one list counted in two ways.
-/

namespace LoadBearing

/-! ## Counting -/

section Counting

variable {α κ : Type}

@[simp] theorem total_nil : total [] = 0 := rfl

@[simp] theorem total_cons (count : Nat) (rest : List Nat) :
    total (count :: rest) = count + total rest := rfl

theorem total_map_add (items : List α) (first second : α → Nat) :
    total (items.map fun item => first item + second item)
      = total (items.map first) + total (items.map second) :=
  List.sum_map_add

theorem total_eq_of_perm {left right : List Nat} (shuffled : left.Perm right) :
    total left = total right :=
  shuffled.sum_nat

theorem total_map_ite_one (items : List α) (p : α → Prop) [DecidablePred p] :
    total (items.map fun item => if p item then 1 else 0) = items.countP fun item => p item := by
  induction items with
  | nil => rfl
  | cons item rest ih =>
    rw [List.map_cons, total_cons, ih, List.countP_cons, Nat.add_comm]
    simp only [decide_eq_true_eq]

theorem total_countP_key [DecidableEq κ] {keys : List κ} (nodup : keys.Nodup)
    {key? : α → Option κ} {items : List α}
    (known : ∀ item ∈ items, ∀ key, key? item = some key → key ∈ keys) :
    total (keys.map fun key => items.countP fun item => key? item = some key)
      = items.countP fun item => (key? item).isSome := by
  induction items with
  | nil => simpa using total_map_ite_one keys fun _ => False
  | cons item rest ih =>
    -- An item counts under its own key and no other: keys do not repeat.
    have here : keys.countP (fun key => key? item = some key)
        = if (key? item).isSome then 1 else 0 := by
      cases found : key? item with
      | none => simp
      | some own =>
        have once := List.count_eq_one_of_mem nodup (known item List.mem_cons_self own found)
        rw [← once]
        exact List.countP_congr fun key _ => by simp [@eq_comm _ key]
    have later := ih fun other member => known other (List.mem_cons_of_mem _ member)
    simp only [List.countP_cons, decide_eq_true_eq, total_map_add, later, total_map_ite_one, here]

/-- The keys that count something, with their counts. -/
def tally (keys : List κ) (count : κ → Nat) : List (κ × Nat) :=
  keys.filterMap fun key => if count key = 0 then none else some (key, count key)

theorem tally_cons (key : κ) (rest : List κ) (count : κ → Nat) :
    tally (key :: rest) count
      = if count key = 0 then tally rest count else (key, count key) :: tally rest count := by
  rw [tally, List.filterMap_cons]
  split
  next skipped => rw [if_pos (by simpa using skipped), tally]
  next entry kept =>
    by_cases zero : count key = 0
    · simp [zero] at kept
    · rw [if_neg zero] at kept ⊢
      cases kept
      rfl

theorem total_tally (keys : List κ) (count : κ → Nat) :
    total ((tally keys count).map Prod.snd) = total (keys.map count) := by
  induction keys with
  | nil => rfl
  | cons key rest ih =>
    rw [tally_cons, List.map_cons, total_cons, ← ih]
    split
    next zero => rw [zero, Nat.zero_add]
    next => rfl

theorem lookup_tally [DecidableEq κ] (keys : List κ) (count : κ → Nat) (key : κ) :
    (tally keys count).lookup key
      = if key ∈ keys ∧ count key ≠ 0 then some (count key) else none := by
  induction keys with
  | nil => simp [tally]
  | cons first rest ih =>
    rw [tally_cons]
    by_cases same : key = first
    · subst same
      by_cases zero : count key = 0
      · rw [if_pos zero, ih]
        simp [zero]
      · rw [if_neg zero]
        simp [zero]
    · have different : (key == first) = false := beq_eq_false_iff_ne.2 same
      by_cases zero : count first = 0
      · rw [if_pos zero, ih]
        simp [same]
      · rw [if_neg zero, List.lookup_cons, different]
        simp [same, ih]

end Counting

/-! ## Calls -/

namespace CallGraph

/-- A graph with the right indices, in which an identity stands for one routine and every call leads
    from a routine to a routine or nowhere. -/
structure WellBuilt (g : CallGraph) : Prop where
  indexed : ofParts g.routines g.calls = g
  unique : (g.routines.map Routine.id).Nodup
  source : ∀ c ∈ g.calls, c.source ∈ g.routines.map Routine.id
  outcome : ∀ c ∈ g.calls, KnownIn g c ∨ Unknown c

section Build

variable (outlines : List Outline)

theorem exists_records {c : Call} (member : c ∈ (build outlines).calls) :
    ∃ n site, Records (build outlines) n site c := by
  let named := nameFiles [] (Outline.sortByFile outlines)
  have refers : (Scope.Symbols.build (build outlines).routines (defaultExports named)).Refers
      ((build outlines).routines.map Routine.id) :=
    Scope.Symbols.refers_build (fun r inGraph => List.mem_map_of_mem inGraph)
      fun entry inTable => map_id_build outlines ▸ mem_defaultExports inTable
  obtain ⟨n, inNamed, fromFile⟩ := List.mem_flatMap.1 member
  obtain ⟨site, -, made⟩ := List.mem_filterMap.1 fromFile
  have sub : ∀ r ∈ n.routines, r ∈ (build outlines).routines :=
    fun r inFile => List.mem_flatMap.2 ⟨n, inNamed, inFile⟩
  have ids := length_ids inNamed
  by_cases inside : site.caller < n.outline.definitions.length
  · obtain ⟨other, alsoMade, records⟩ := exists_resolveSite? (nodup_ids_build outlines) refers sub
      ids inside (resolveImports (named.map (·.outline.file)) n.outline) (build outlines).calls
    have same : some other = some c := alsoMade.symm.trans made
    cases same
    exact ⟨n, site, records⟩
  · -- A site outside all definitions has no source and makes no call.
    have stray : n.ids[site.caller]? = none := List.getElem?_eq_none (by omega)
    rw [resolveSite?_eq_none stray] at made
    cases made

theorem wellBuilt_build : WellBuilt (build outlines) := by
  refine ⟨rfl, nodup_ids_build outlines, fun c member => ?_, fun c member => ?_⟩
  · obtain ⟨n, site, records⟩ := exists_records outlines member
    obtain ⟨-, d, -, isRoutine⟩ := records.source
    exact List.mem_map_of_mem (f := Routine.id) isRoutine
  · obtain ⟨n, site, records⟩ := exists_records outlines member
    exact records.outcome

end Build

theorem length_calls (g : CallGraph) :
    g.calls.length = g.resolvedCalls.length + g.unresolvedCount := by
  rw [resolvedCalls, unresolvedCount, ← List.countP_eq_length_filter,
    List.length_eq_countP_add_countP Call.resolved]
  simp

namespace WellBuilt

variable {g : CallGraph}

theorem resolved_iff (built : WellBuilt g) {c : Call} (member : c ∈ g.calls) :
    (c.resolved = true ↔ c.target.isSome = true) ∧ (c.resolved = true → c.rule.isSome = true) ∧
      ∀ target, c.target = some target → target ∈ g.routines.map Routine.id := by
  rcases built.outcome c member with ⟨resolved, rule, target, -, -, found, known, -⟩ | nowhere
  · simp only [resolved, rule, found, Option.isSome_some, Option.some.injEq, forall_eq', known,
      and_self, implies_true]
  · simp [nowhere.1, nowhere.2.1]

theorem total_rules (built : WellBuilt g) :
    total (g.ruleCounts.map Prod.snd) = g.resolvedCalls.length := by
  have listed : Rule.all.Nodup ∧ ∀ rule, rule ∈ Rule.all := by
    refine ⟨by decide, fun rule => ?_⟩
    cases rule <;> decide
  calc total (g.ruleCounts.map Prod.snd)
      = total (Rule.all.map fun rule => g.resolvedCalls.countP fun c => c.rule = some rule) :=
        total_tally Rule.all _
    _ = g.resolvedCalls.countP fun c => c.rule.isSome :=
        total_countP_key listed.1 fun _ _ rule _ => listed.2 rule
    _ = g.resolvedCalls.length := by
        rw [List.countP_eq_length]
        intro c member
        obtain ⟨inCalls, resolved⟩ := List.mem_filter.1 member
        exact (built.resolved_iff inCalls).2.1 resolved

theorem fanOut_eq (built : WellBuilt g) (id : String) :
    g.fanOut id = g.calls.countP fun c => c.source = id := by
  have scanned := fanOut_ofParts g.routines g.calls id
  rwa [built.indexed] at scanned

theorem fanIn_eq (built : WellBuilt g) (id : String) :
    g.fanIn id = g.calls.countP fun c => c.target = some id := by
  have scanned := fanIn_ofParts g.routines g.calls id
  rwa [built.indexed] at scanned

theorem crossFanOut_eq (built : WellBuilt g) (id : String) :
    g.crossFanOut id = (g.calls.filter Call.leavesModule).countP fun c => c.source = id := by
  have scanned := callsFrom_ofParts g.routines g.calls id
  rw [built.indexed] at scanned
  rw [crossFanOut, scanned, List.countP_filter, List.countP_filter]
  simp only [Bool.and_comm]

theorem total_at_routines (built : WellBuilt g) (key? : Call → Option String) (calls : List Call)
    (known : ∀ c ∈ calls, ∀ id, key? c = some id → id ∈ g.routines.map Routine.id) :
    total (g.routines.map fun r => calls.countP fun c => key? c = some r.id)
      = calls.countP fun c => (key? c).isSome := by
  have counted := total_countP_key built.unique known
  rwa [List.map_map] at counted

theorem total_at_sources (built : WellBuilt g) {calls : List Call} (sub : ∀ c ∈ calls, c ∈ g.calls) :
    total (g.routines.map fun r => calls.countP fun c => c.source = r.id) = calls.length := by
  have counted := built.total_at_routines (fun c => some c.source) calls fun c member id same =>
    Option.some.inj same ▸ built.source c (sub c member)
  simpa using counted

theorem total_fanOut (built : WellBuilt g) :
    total (g.routines.map fun r => g.fanOut r.id) = g.calls.length := by
  simp only [built.fanOut_eq]
  exact built.total_at_sources fun c member => member

theorem total_crossFanOut (built : WellBuilt g) :
    total (g.routines.map fun r => g.crossFanOut r.id) = g.calls.countP Call.leavesModule := by
  simp only [built.crossFanOut_eq]
  rw [List.countP_eq_length_filter]
  exact built.total_at_sources fun c member => List.mem_of_mem_filter member

theorem total_fanIn (built : WellBuilt g) :
    total (g.routines.map fun r => g.fanIn r.id) = g.resolvedCalls.length := by
  simp only [built.fanIn_eq]
  rw [built.total_at_routines Call.target g.calls fun c member => (built.resolved_iff member).2.2,
    resolvedCalls, ← List.countP_eq_length_filter]
  exact List.countP_congr fun c member => (built.resolved_iff member).1.symm

theorem mem_ids_of_isNode (built : WellBuilt g) {id : String} (node : Neighbourhood.IsNode g id) :
    id ∈ g.routines.map Routine.id := by
  -- A node that is not a routine would be an end of a known call, and those are routines too.
  rcases node with ⟨r, member, rfl⟩ | ⟨other, c, member, -, -, ⟨rfl, -⟩ | ⟨-, found⟩⟩
  · exact List.mem_map_of_mem member
  · exact built.source c member
  · exact (built.resolved_iff member).2.2 id found

theorem metrics?_isSome (built : WellBuilt g) {r : Routine} (member : r ∈ g.routines) :
    (g.metrics? r.id).isSome = true := by
  have found := routine?_ofParts g.routines g.calls r.id
  rw [built.indexed, find?_id_of_mem built.unique member] at found
  rw [metrics?, found]
  rfl

end WellBuilt

end CallGraph

/-! ## Distributions -/

def Profile.distributions (p : Profile) : List Distribution :=
  [p.fanIn, p.fanOut, p.complexity, p.length, p.params, p.crossFanOut, p.crossRatio]

theorem Distribution.count_ofValues (values : List Float) :
    (ofValues values).count = values.length := by
  rw [ofValues, Summary.of]
  split
  next empty => rw [List.isEmpty_iff.1 empty]; rfl
  next => exact List.length_mergeSort values

theorem CallGraph.WellBuilt.count_distributions {g : CallGraph} (built : WellBuilt g) :
    ∀ d ∈ (Profile.of g).distributions, d.count = g.routines.length := by
  have measured : (g.routines.filterMap fun r => g.metrics? r.id).length = g.routines.length :=
    List.filterMap_length_eq_length.2 fun r member => built.metrics?_isSome member
  simp only [Profile.distributions, Profile.of, List.forall_mem_cons, Distribution.count_ofValues,
    List.length_map, measured]
  simp

/-! ## Findings -/

namespace Finding

theorem nodup_about (disabled : List Archetype) (e : Evidence) (r : Routine) :
    ((about (Archetype.enabled disabled) e r).map archetype).Nodup := by
  have enabled : (Archetype.enabled disabled).Nodup :=
    List.Nodup.filter _ (by decide : Archetype.all.Nodup)
  rw [about, ((List.mergeSort_perm _ _).map archetype).nodup_iff, List.map_filterMap]
  refine enabled.filterMap fun one other found fromOne fromOther => ?_
  simp only [Option.map_map, Option.mem_def, Option.map_eq_some_iff] at fromOne fromOther
  obtain ⟨_, _, isOne⟩ := fromOne
  obtain ⟨_, _, isOther⟩ := fromOther
  exact isOne.trans isOther.symm

variable {e : Evidence} (enabled : List Archetype)

theorem all_perm (unique : (e.graph.routines.map Routine.id).Nodup) :
    (all enabled e).Perm (e.graph.routines.map fun r => (r.id, about enabled e r)) := by
  refine Table.ofList_perm ?_
  rwa [List.map_map]

theorem find?_all (unique : (e.graph.routines.map Routine.id).Nodup) {r : Routine}
    (member : r ∈ e.graph.routines) : (all enabled e).find? r.id = some (about enabled e r) :=
  (Table.ordered_ofList _).find?_of_mem
    ((all_perm enabled unique).mem_iff.2 (List.mem_map.2 ⟨r, member, rfl⟩))

theorem keys_all_perm (unique : (e.graph.routines.map Routine.id).Nodup) :
    (all enabled e).keys.Perm (e.graph.routines.map Routine.id) := by
  have keys := (all_perm enabled unique).map Prod.fst
  rwa [List.map_map] at keys

theorem nodup_find?_all (unique : (e.graph.routines.map Routine.id).Nodup)
    (disabled : List Archetype) (id : String) :
    ((((all (Archetype.enabled disabled) e).find? id).getD []).map archetype).Nodup := by
  cases found : (all (Archetype.enabled disabled) e).find? id with
  | none => exact List.nodup_nil
  | some findings =>
    have listed := (all_perm _ unique).mem_iff.1 (Table.mem_of_find? found)
    obtain ⟨r, -, same⟩ := List.mem_map.1 listed
    cases same
    exact nodup_about disabled e r

theorem countP_archetype {findings : List Finding} (nodup : (findings.map archetype).Nodup)
    (a : Archetype) :
    findings.countP (fun finding => finding.archetype = a)
      = if a ∈ findings.map archetype then 1 else 0 := by
  rw [← nodup.count, List.count, List.countP_map]
  rfl

theorem total_countP_all (unique : (e.graph.routines.map Routine.id).Nodup)
    (disabled : List Archetype) (a : Archetype) :
    let findings := all (Archetype.enabled disabled) e
    total (findings.map fun entry => entry.2.countP fun finding => finding.archetype = a)
      = e.graph.routines.countP fun r => a ∈ ((findings.find? r.id).getD []).map archetype := by
  intro findings
  have counted := total_eq_of_perm ((all_perm (Archetype.enabled disabled) unique).map fun entry =>
    entry.2.countP fun finding => finding.archetype = a)
  rw [List.map_map] at counted
  refine counted.trans ?_
  -- A routine has an archetype once or not at all, so counting findings is counting routines.
  simp only [Function.comp_def, countP_archetype (nodup_about disabled e _), total_map_ite_one]
  refine List.countP_congr fun r member => ?_
  rw [find?_all _ unique member, Option.getD_some]

end Finding

/-! ## Clusters -/

theorem Table.total_length_update {α : Type} (table : Table (List α)) (key : String) (value : α) :
    total ((table.update key fun old => old.getD [] ++ [value]).map fun entry => entry.2.length)
      = total (table.map fun entry => entry.2.length) + 1 := by
  -- The value opens a list before the next larger key, joins one, or goes further down.
  induction table with
  | nil => rfl
  | cons entry rest ih =>
    rw [update]
    split
    · simp only [List.map_cons, total_cons, Option.getD_none, List.nil_append,
        List.length_singleton]
      omega
    · split
      · simp only [List.map_cons, total_cons, Option.getD_some, List.length_append,
          List.length_singleton]
        omega
      · simp only [List.map_cons, total_cons, ih]
        omega

namespace ClusterSearch

theorem total_length_groups (labels : Table String) :
    total ((groups labels).map fun group => group.2.length) = labels.length := by
  -- The loop is generalised to start with any groups.
  suffices general : ∀ table : Table (List String),
      total ((labels.foldl (fun groups entry =>
          groups.update entry.2 fun members => members.getD [] ++ [entry.1]) table).map
        fun group => group.2.length)
      = total (table.map fun group => group.2.length) + labels.length by
    simpa [groups] using general []
  induction labels with
  | nil => simp
  | cons entry rest ih =>
    intro table
    rw [List.foldl_cons, ih, Table.total_length_update, List.length_cons]
    omega

theorem total_size_run (search : ClusterSearch) (g : CallGraph) :
    total ((search.run g).map Cluster.size)
      = total (((groups (search.labels g)).filter fun group => search.minSize ≤ group.2.length).map
          fun group => group.2.length) := by
  rw [run]
  generalize (groups (search.labels g)).filter _ = large
  let clusters := large.map fun group => Cluster.describe g (Neighbourhood.of g) group.1 group.2
  -- Neither the order of the clusters nor their numbers change a size.
  have numbered : ((clusters.mergeSort Cluster.le).zipIdx.map
        fun entry => { entry.1 with id := entry.2 }).map Cluster.size
      = ((clusters.mergeSort Cluster.le).zipIdx.map Prod.fst).map Cluster.size := by
    rw [List.map_map, List.map_map]
    rfl
  have sizes : clusters.map Cluster.size = large.map fun group => group.2.length := by
    rw [List.map_map]
    rfl
  rw [numbered, List.zipIdx_map_fst, total_eq_of_perm ((List.mergeSort_perm _ _).map Cluster.size),
    sizes]

theorem length_labels_le {g : CallGraph} (built : g.WellBuilt) (search : ClusterSearch) :
    (search.labels g).length ≤ g.routines.length := by
  -- The labels at the end of the last pass are those before any update of the next one.
  have labelling : Labels.Labelling (Neighbourhood.of g) (search.labels g) :=
    Labels.labelling_midway (Neighbourhood.simple_of g) search.maxPasses 0
  have known : (search.labels g).keys ⊆ g.routines.map Routine.id := fun id member =>
    built.mem_ids_of_isNode (Neighbourhood.mem_keys_of.1 ((labelling.nodes id).1 member))
  have nodup : (search.labels g).keys.Nodup := Roster.Ordered.nodup labelling.ordered
  simpa [Table.keys] using (List.subperm_of_subset nodup known).length_le

theorem total_size_run_le {g : CallGraph} (built : g.WellBuilt) (search : ClusterSearch) :
    total ((search.run g).map Cluster.size) ≤ g.routines.length :=
  calc total ((search.run g).map Cluster.size)
      = total (((groups (search.labels g)).filter fun group => search.minSize ≤ group.2.length).map
          fun group => group.2.length) := total_size_run search g
    _ ≤ total ((groups (search.labels g)).map fun group => group.2.length) :=
        (List.filter_sublist.map _).sum_le_sum fun _ _ => Nat.zero_le _
    _ = (search.labels g).length := total_length_groups _
    _ ≤ g.routines.length := length_labels_le built search

end ClusterSearch

/-! ## Reports -/

namespace Report

theorem getD_lookup_archetypeCounts (r : Report) (a : Archetype) :
    (r.archetypeCounts.lookup a).getD 0
      = total (r.findings.map fun entry =>
          entry.2.countP fun finding => finding.archetype = a) := by
  have listed : a ∈ Archetype.all := by cases a <;> decide
  -- The counts are a tally by definition, and a tally leaves out only what counts nothing.
  have looked := lookup_tally Archetype.all (fun a => total (r.findings.map fun entry =>
    entry.2.countP fun finding => finding.archetype = a)) a
  change r.archetypeCounts.lookup a = _ at looked
  rw [looked]
  split
  next => rfl
  next absent =>
    rw [not_and_or, not_not] at absent
    exact (absent.resolve_left fun unlisted => unlisted listed).symm

/-- The numbers of a report agree with each other, whatever the files, the history and the settings
    are. -/
theorem build_adds_up (analysed : String) (batch : Batch) (history : Option History)
    (settings : Settings) :
    let r := build analysed batch history settings
    let s := r.summary
    let routines := r.graph.routines
    s.calls = s.resolved + s.unresolved ∧
    total (s.rules.map Prod.snd) = s.resolved ∧
    (total (routines.map fun f => r.graph.fanOut f.id) = s.calls ∧
      total (routines.map fun f => r.graph.fanIn f.id) = s.resolved ∧
      total (routines.map fun f => r.graph.crossFanOut f.id) = s.crossing) ∧
    (s.routines = routines.length ∧ r.findings.keys.Nodup ∧
      r.findings.keys.Perm (routines.map Routine.id)) ∧
    (∀ d ∈ r.profile.distributions, d.count = s.routines) ∧
    (∀ a, (s.archetypes.lookup a).getD 0
      = routines.countP fun f => a ∈ (r.findingsAbout f.id).map Finding.archetype) ∧
    (∀ id, ((r.findingsAbout id).map Finding.archetype).Nodup) ∧
    total (r.clusters.map Cluster.size) ≤ s.routines := by
  intro r s routines
  have built : r.graph.WellBuilt := CallGraph.wellBuilt_build batch.outlines
  obtain ⟨e, sameGraph, found⟩ : ∃ e : Evidence, e.graph = r.graph ∧
      r.findings = Finding.all (Archetype.enabled settings.disabled) e := ⟨_, rfl, rfl⟩
  have unique : (e.graph.routines.map Routine.id).Nodup := sameGraph ▸ built.unique
  refine ⟨r.graph.length_calls, built.total_rules,
    ⟨built.total_fanOut, built.total_fanIn, built.total_crossFanOut⟩,
    ⟨rfl, Roster.Ordered.nodup (Table.ordered_ofList _), ?_⟩,
    built.count_distributions, fun a => ?_, fun id => ?_,
    ClusterSearch.total_size_run_le built settings.clusters⟩
  · have keys := Finding.keys_all_perm (Archetype.enabled settings.disabled) unique
    rwa [← found, sameGraph] at keys
  · have counted := Finding.total_countP_all unique settings.disabled a
    rw [← found, sameGraph] at counted
    exact (getD_lookup_archetypeCounts r a).trans counted
  · rw [findingsAbout, found]
    exact Finding.nodup_find?_all unique settings.disabled id

end Report

end LoadBearing
