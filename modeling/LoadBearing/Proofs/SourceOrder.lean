import LoadBearing.Proofs.ArrivalOrder
import LoadBearing.Proofs.Spans

/-! # Functions in source order

Where the children of every node come one after the other, a walk comes to functions in the order in
which they begin.  The invariant bounds everything found in a node by the bytes of the node.  The
first function of a file and the first one that claims a name are therefore the ones that a reader
of the source comes to first.
-/

namespace LoadBearing

/-! ## Trees in order -/

namespace Node

variable {n : Node}

/-- Children come one after the other within the bytes of their parent, and the parameters of a
    function before its body. -/
def InOrder (n : Node) : Prop :=
  n.Encloses ∧ (n.children.Pairwise fun left right => left.stop ≤ right.start) ∧
    (n.construct.isCallable = true → ∀ parameters ∈ n.part? "parameters",
      ∀ body ∈ n.part? "body", parameters.node.stop ≤ body.node.start)

instance : DecidablePred InOrder := fun _ => inferInstanceAs (Decidable (_ ∧ _ ∧ _))

def startAt (root : Node) (place : List Nat) : Nat :=
  ((root.at? place).map Node.start).getD 0

theorem startAt_eq {root : Node} {place : List Nat} (found : root.at? place = some n) :
    root.startAt place = n.start := by
  rw [startAt, found]
  rfl

theorem map_node_parts (n : Node) : n.parts.map (·.node) = n.children := by
  rw [parts, List.map_map]
  change n.children.zipIdx.attach.map (Prod.fst ∘ Subtype.val) = _
  rw [← List.map_map, List.attach_map_subtype_val, List.zipIdx_map_fst]

end Node

/-- Parts come one after the other between two bytes. -/
structure Row {n : Node} (start stop : Nat) (parts : List (Part n)) : Prop where
  inside : ∀ part ∈ parts, start ≤ part.node.start ∧ part.node.stop ≤ stop
  ordered : parts.Pairwise fun left right => left.node.stop ≤ right.node.start

namespace Row

variable {n : Node} {start stop : Nat} {parts fewer : List (Part n)}

theorem nil : Row start stop ([] : List (Part n)) := ⟨List.forall_mem_nil _, List.Pairwise.nil⟩

theorem sublist (row : Row start stop parts) (some : fewer.Sublist parts) : Row start stop fewer :=
  ⟨fun part member => row.inside part (some.subset member), row.ordered.sublist some⟩

theorem ofParts (inOrder : n.InOrder) : Row n.start n.stop n.parts := by
  obtain ⟨encloses, siblings, -⟩ := inOrder
  rw [← Node.map_node_parts, List.pairwise_map] at siblings
  refine ⟨fun part member => encloses.2 part.node ?_, siblings⟩
  rw [← Node.map_node_parts]
  exact List.mem_map_of_mem member

theorem namedParts {part : Part n} (inOrder : part.node.InOrder) (low : start ≤ part.node.start)
    (high : part.node.stop ≤ stop) : Row start stop part.namedParts := by
  have row : Row part.node.start part.node.stop part.node.namedParts :=
    (ofParts inOrder).sublist List.filter_sublist
  rw [Part.namedParts]
  refine ⟨fun inner member => ?_, List.pairwise_map.2 row.ordered⟩
  obtain ⟨child, isChild, rfl⟩ := List.mem_map.1 member
  obtain ⟨left, right⟩ := row.inside child isChild
  exact ⟨low.trans left, right.trans high⟩

/-- The parts of a function: what is in its parameters, then its body. -/
theorem body {callable : Node} (isCallable : callable.construct.isCallable = true)
    (inOrder : callable.Everywhere Node.InOrder) :
    Row callable.start callable.stop (Plan.body callable) := by
  have here : callable.InOrder := inOrder [] callable rfl
  have range {field : String} {part : Part callable} (found : callable.part? field = some part) :
      callable.start ≤ part.node.start ∧ part.node.stop ≤ callable.stop :=
    (ofParts here).inside part (Node.mem_parts_of_part? found)
  have parameters :
      Row callable.start callable.stop
        (((callable.part? "parameters").map Part.namedParts).getD []) := by
    cases found : callable.part? "parameters" with
    | none => exact nil
    | some part => exact namedParts (inOrder _ _ part.found) (range found).1 (range found).2
  rw [Plan.body]
  refine ⟨fun part member => ?_, List.pairwise_append.2 ⟨parameters.ordered, ?_, ?_⟩⟩
  · rcases List.mem_append.1 member with inside | isBody
    · exact parameters.inside part inside
    · exact range (Option.mem_toList.1 isBody)
  · cases callable.part? "body" with
    | none => exact List.Pairwise.nil
    | some part => exact List.pairwise_singleton _ _
  · -- What is in the parameters ends with them, before the body begins.
    intro inner isInner part isBody
    cases found : callable.part? "parameters" with
    | none =>
      rw [found] at isInner
      cases isInner
    | some holder =>
      rw [found] at isInner
      have row : Row holder.node.start holder.node.stop holder.namedParts :=
        namedParts (inOrder _ _ holder.found) le_rfl le_rfl
      have apart : holder.node.stop ≤ part.node.start :=
        here.2.2 isCallable holder found part (Option.mem_toList.1 isBody)
      exact (row.inside inner isInner).2.trans apart

end Row

/-! ## Marks in order -/

def SourceText.mark (source : SourceText) (byte : Nat) : Nat × Nat := (source.lineAt byte, byte)

theorem SourceText.mark_mono (source : SourceText) {left right : Nat} (le : left ≤ right) :
    source.mark left ≤ source.mark right :=
  ⟨source.lineAt_mono le, le⟩

def Event.mark? (root : Node) : Event → Option (Nat × Nat)
  | .define place d => some (d.line, root.startAt place)
  | .call _ _ _ _ _ | .branch _ _ => none

def marks (root : Node) (es : List Event) : List (Nat × Nat) := es.filterMap (Event.mark? root)

theorem marks_append (root : Node) (es fs : List Event) :
    marks root (es ++ fs) = marks root es ++ marks root fs :=
  List.filterMap_append

theorem marks_flatMap {α : Type} (root : Node) (items : List α) (eventsOf : α → List Event) :
    marks root (items.flatMap eventsOf) = items.flatMap fun item => marks root (eventsOf item) :=
  List.filterMap_flatMap

/-- Marks that increase from one byte to another. -/
structure Sequential (source : SourceText) (start stop : Nat) (ms : List (Nat × Nat)) : Prop where
  within : ∀ m ∈ ms, source.mark start ≤ m ∧ m ≤ source.mark stop
  sorted : ms.Pairwise (· ≤ ·)

namespace Sequential

variable {source : SourceText} {start stop left right : Nat} {ms : List (Nat × Nat)}

theorem nil : Sequential source start stop [] := ⟨List.forall_mem_nil _, List.Pairwise.nil⟩

theorem widen (sequential : Sequential source left right ms) (low : start ≤ left)
    (high : right ≤ stop) : Sequential source start stop ms := by
  refine ⟨fun m member => ?_, sequential.sorted⟩
  obtain ⟨after, before⟩ := sequential.within m member
  exact ⟨(source.mark_mono low).trans after, before.trans (source.mark_mono high)⟩

theorem flatMap {n : Node} {parts : List (Part n)} {marksOf : Part n → List (Nat × Nat)}
    (row : Row start stop parts)
    (each : ∀ part ∈ parts, Sequential source part.node.start part.node.stop (marksOf part)) :
    Sequential source start stop (parts.flatMap marksOf) := by
  constructor
  · intro m member
    obtain ⟨part, isPart, among⟩ := List.mem_flatMap.1 member
    obtain ⟨low, high⟩ := row.inside part isPart
    exact ((each part isPart).widen low high).within m among
  · rw [List.pairwise_flatMap]
    refine ⟨fun part isPart => (each part isPart).sorted, row.ordered.imp_of_mem ?_⟩
    intro one next isOne isNext apart m among later amongNext
    calc m
      _ ≤ source.mark one.node.stop := ((each one isOne).within m among).2
      _ ≤ source.mark next.node.start := source.mark_mono apart
      _ ≤ later := ((each next isNext).within later amongNext).1

/-- A function may begin before its first byte, on the line of the node that holds it. -/
theorem cons {byte : Nat} (inside : Sequential source byte stop ms) (low : start ≤ byte)
    (high : byte ≤ stop) : Sequential source start stop ((source.lineAt start, byte) :: ms) := by
  have first : (source.lineAt start, byte) ≤ source.mark byte := ⟨source.lineAt_mono low, le_rfl⟩
  constructor
  · rw [List.forall_mem_cons]
    exact ⟨⟨⟨le_rfl, low⟩, first.trans (source.mark_mono high)⟩, (inside.widen low le_rfl).within⟩
  · exact List.pairwise_cons.2
      ⟨fun later member => first.trans (inside.within later member).1, inside.sorted⟩

end Sequential

/-! ## Walks in order -/

section Walk

variable {source : SourceText} {root n : Node} {place : List Nat} {around : Surroundings}

theorem marks_stepEvents_of_quiet {step : Step n} (quiet : step.Quiet) :
    marks root (stepEvents source around place step) = [] := by
  cases step with
  | visit | define | enter => cases quiet
  | call | branch | bind | exportDefault => rfl

theorem marks_of_quiet {steps : List (Step n)} (quiet : ∀ step ∈ steps, step.Quiet) :
    marks root (steps.flatMap (stepEvents source around place)) = [] := by
  rw [marks_flatMap, List.flatMap_eq_nil_iff]
  exact fun step member => marks_stepEvents_of_quiet (quiet step member)

variable (smaller : ∀ k place around, root.at? place = some k → k.size < n.size →
  Sequential source k.start k.stop (marks root (events source around place k)))

include smaller

theorem sequential_parts {m : Node} {start stop : Nat} {parts : List (Part m)}
    (found : root.at? place = some m) (small : m.size ≤ n.size) (row : Row start stop parts)
    (surroundings : Part m → Surroundings) :
    Sequential source start stop (marks root (parts.flatMap fun part =>
      events source (surroundings part) (place ++ part.place) part.node)) := by
  rw [marks_flatMap]
  exact .flatMap row fun part _ =>
    smaller part.node _ _ (at?_part found part.toSpot) (part.size_lt.trans_le small)

variable (inOrder : root.Everywhere Node.InOrder) (found : root.at? place = some n)

include inOrder found

theorem sequential_define {callable : Spot n} {d : Definition} {isMember : Bool} {start stop : Nat}
    (isCallable : callable.node.construct.isCallable = true)
    (line : d.line = source.lineAt start) (low : start ≤ callable.node.start)
    (high : callable.node.stop ≤ stop) :
    Sequential source start stop
      (marks root (stepEvents source around place (.define callable d isMember))) := by
  have below := at?_part found callable
  have function : callable.node.Everywhere Node.InOrder := inOrder.of_at? below
  have inside := sequential_parts smaller below callable.size_le (Row.body isCallable function)
    fun part => { around with parent := part.parent, owner := some (place ++ callable.place) }
  have first : Event.mark? root (.define (place ++ callable.place)
      (if isMember then { d with owner := around.classes.head? } else d))
        = some (source.lineAt start, callable.node.start) := by
    rw [Event.mark?, Node.startAt_eq below, ← line]
    split <;> rfl
  -- The function is recorded before what is in it.
  rw [stepEvents, marks, List.filterMap_cons, first]
  exact .cons (inside.widen le_rfl high) low ((function [] _ rfl).1.1.trans high)

theorem sequential_contribution {child : Part n} {steps : List (Step n)}
    (contribution : Contribution source child steps) :
    Sequential source child.node.start child.node.stop
      (marks root (steps.flatMap (stepEvents source around place))) := by
  cases contribution with
  | quiet quiet =>
    rw [marks_of_quiet quiet]
    exact .nil
  | visit =>
    rw [List.flatMap_singleton, stepEvents]
    exact smaller child.node _ _ (at?_part found child.toSpot) child.size_lt
  | define isCallable line quiet =>
    rw [List.flatMap_cons, marks_append, marks_of_quiet quiet, List.append_nil]
    exact sequential_define smaller inOrder found isCallable line le_rfl le_rfl

theorem sequential_course {steps : List (Step n)} (course : Course source n steps) :
    Sequential source n.start n.stop
      (marks root (steps.flatMap (stepEvents source around place))) := by
  have everywhere : n.Everywhere Node.InOrder := inOrder.of_at? found
  have encloses : n.Everywhere Node.Encloses := fun place m below => (everywhere place m below).1
  have here : n.InOrder := everywhere [] n rfl
  cases course with
  | children quiet some each =>
    rw [List.flatMap_append, marks_append, marks_of_quiet quiet, List.nil_append,
      List.flatMap_assoc, marks_flatMap]
    exact .flatMap ((Row.ofParts here).sublist some) fun child member =>
      sequential_contribution smaller inOrder found (each child member)
  | @define callable _ _ _ isCallable _ line quiet =>
    obtain ⟨low, -, high⟩ := Node.range_of_at? encloses callable.found
    rw [List.flatMap_cons, marks_append, marks_of_quiet quiet, List.append_nil]
    exact sequential_define smaller inOrder found isCallable line low high
  | @enter name body? =>
    have row : Row n.start n.stop ((body?.map Part.namedParts).getD []) := by
      cases body? with
      | none => exact .nil
      | some holder =>
        obtain ⟨low, -, high⟩ := Node.range_of_at? encloses holder.found
        exact .namedParts (everywhere _ _ holder.found) low high
    rw [List.flatMap_singleton, stepEvents]
    exact sequential_parts smaller found le_rfl row _

omit smaller in
/-- A walk comes to the functions in a node in the order in which they begin. -/
theorem sequential_events :
    Sequential source n.start n.stop (marks root (events source around place n)) := by
  induction size : n.size using Nat.strongRecOn generalizing n around place with
  | ind bound ih =>
    rw [events_eq]
    refine sequential_course ?_ inOrder found (plan_course source _ _ n)
    intro k below deeper isBelow small
    exact ih k.size (size ▸ small) isBelow rfl

end Walk

theorem sorted_marks (source : SourceText) {root : Node} (inOrder : root.Everywhere Node.InOrder) :
    (marks root (eventsOfTree source root)).Pairwise (· ≤ ·) := by
  have row : Row root.start root.stop root.namedParts :=
    (Row.ofParts (inOrder [] root rfl)).sublist List.filter_sublist
  rw [eventsOfTree, marks_flatMap]
  exact (Sequential.flatMap row fun part _ => sequential_events inOrder part.found).sorted

theorem marks_of_records {root : Node} {all es : List Event} {definitions : List Definition}
    (recorded : List.Forall₂ (RecordsDefinition all) definitions es) :
    marks root es
      = (definitions.map Definition.line).zip ((es.map Event.place).map root.startAt) := by
  induction recorded with
  | nil => rfl
  | @cons d e _ _ records _ ih =>
    cases e with
    | define place plain =>
      have line : d.line = plain.line := by rw [records.1]
      rw [marks, List.filterMap_cons, ← marks, ih, Event.mark?, ← line]
      rfl
    | call => cases records
    | branch => cases records

theorem marks_eventsOfTree (file : String) (source : SourceText) (root : Node) :
    marks root (eventsOfTree source root)
      = ((Outline.ofTree file source root).definitions.map Definition.line).zip
          ((functionPlaces source root).map root.startAt) := by
  -- Calls and decisions have no marks.
  have onlyDefine : marks root (eventsOfTree source root)
      = marks root ((eventsOfTree source root).filter Event.isDefine) := by
    rw [marks, marks, List.filterMap_filter]
    refine List.filterMap_congr fun e _ => ?_
    cases e <;> rfl
  rw [onlyDefine]
  exact marks_of_records (agrees_ofTree file source root).definitions

/-! ## The first of a file -/

namespace CallGraph

/-- Among the functions of a file that meet a condition, the one with an identity comes first in the
    source. -/
def FirstInSource (source : SourceText) (root : Node) (n : NamedOutline)
    (condition : Routine → Prop) (id : String) : Prop :=
  let entries := n.routines.zip (functionPlaces source root)
  ∃ first ∈ entries, first.1.id = id ∧ condition first.1 ∧ ∀ other ∈ entries, condition other.1 →
    first.1.line ≤ other.1.line ∧ root.startAt first.2 ≤ root.startAt other.2

theorem map_line_routines {n : NamedOutline} (named : n.ids.length = n.outline.definitions.length) :
    n.routines.map Routine.line = n.outline.definitions.map Definition.line := by
  apply List.ext_getElem
  · simp [NamedOutline.routines, named]
  · intro position _ _
    simp [NamedOutline.routines, Routine.ofDefinition]

section First

variable {file : String} {source : SourceText} {root : Node} {n : NamedOutline}

/-- A scan of the functions of a file stops at the one that comes first in the source. -/
theorem firstInSource_of_find? (inOrder : root.Everywhere Node.InOrder)
    (same : n.outline = Outline.ofTree file source root)
    (named : n.ids.length = n.outline.definitions.length) {condition : Routine → Prop}
    [DecidablePred condition] {r : Routine}
    (found : n.routines.find? (fun r => condition r) = some r) :
    FirstInSource source root n condition r.id := by
  have sorted : (n.routines.zip (functionPlaces source root)).Pairwise fun one next =>
      one.1.line ≤ next.1.line ∧ root.startAt one.2 ≤ root.startAt next.2 := by
    have inSource := sorted_marks source inOrder
    rw [marks_eventsOfTree file, ← same, ← map_line_routines named, List.zip_map,
      List.pairwise_map] at inSource
    exact inSource
  have fits : n.routines.length = (functionPlaces source root).length := by
    have lines := congrArg List.length (map_line_routines named)
    rw [List.length_map, List.length_map] at lines
    rw [lines, same, (spans_ofTree file source root).length_eq]
  rw [← List.map_fst_zip fits.le, List.find?_map, Option.map_eq_some_iff] at found
  obtain ⟨first, isFirst, rfl⟩ := found
  obtain ⟨meets, before, after, split, misses⟩ := List.find?_eq_some_iff_append.1 isFirst
  refine ⟨first, List.mem_of_find?_eq_some isFirst, rfl, of_decide_eq_true meets, ?_⟩
  intro other member meetsToo
  rw [split] at member sorted
  rcases List.mem_append.1 member with earlier | here
  · have missed := misses other earlier
    simp [meetsToo] at missed
  · rcases List.mem_cons.1 here with rfl | later
    · exact ⟨le_rfl, le_rfl⟩
    · exact (List.pairwise_cons.1 (List.pairwise_append.1 sorted).2.1).1 other later

theorem find?_flatMap_of_mem {α β : Type} {items : List α} {f : α → List β} {p : β → Bool}
    (distinct : (items.flatMap f).Nodup) {item : α} (member : item ∈ items) {b : β}
    (found : (items.flatMap f).find? p = some b) (here : b ∈ f item) :
    (f item).find? p = some b := by
  have meets := List.find?_some found
  -- What comes earlier has nothing in common with the list of the item.
  obtain ⟨before, after, rfl⟩ := List.append_of_mem member
  rw [List.flatMap_append, List.flatMap_cons] at distinct found
  have notBefore : (before.flatMap f).find? p = none := by
    cases earlier : (before.flatMap f).find? p with
    | none => rfl
    | some other =>
      rw [List.find?_append, earlier] at found
      obtain rfl := Option.some.inj found
      have apart := List.disjoint_of_nodup_append distinct (List.mem_of_find?_eq_some earlier)
      exact (apart (List.mem_append_left _ here)).elim
  rw [List.find?_append, notBefore, Option.none_or, List.find?_append] at found
  cases answer : (f item).find? p with
  | none => exact absurd meets (List.find?_eq_none.1 answer b here)
  | some other =>
    rw [answer] at found
    exact found

/-- Without a declared default, the default export of a file is its first function. -/
theorem default?_firstInSource (inOrder : root.Everywhere Node.InOrder)
    (same : n.outline = Outline.ofTree file source root)
    (named : n.ids.length = n.outline.definitions.length) (any : n.outline.definitions ≠ [])
    (undeclared : declaredDefault? n.outline = none) :
    ∃ id, n.default? = some id ∧ FirstInSource source root n (fun _ => True) id := by
  cases routines : n.routines with
  | nil =>
    have lines := map_line_routines named
    rw [routines] at lines
    exact absurd (List.map_eq_nil_iff.1 lines.symm) any
  | cons r rest =>
    have ids := map_id_routines named
    rw [routines, List.map_cons] at ids
    refine ⟨r.id, ?_, firstInSource_of_find? inOrder same named ?_⟩
    · rw [NamedOutline.default?, undeclared, ← ids]
      rfl
    · rw [routines]
      rfl

/-- The export index answers with the first function that claims a name, if the file of the function
    is the one that is asked for. -/
theorem export?_firstInSource (inOrder : root.Everywhere Node.InOrder)
    (same : n.outline = Outline.ofTree file source root) {outlines : List Outline}
    (member : n ∈ nameFiles [] (Outline.sortByFile outlines)) {name : String}
    (unbound : Scope.default? (defaultExports (nameFiles [] (Outline.sortByFile outlines)))
      (Scope.exportKey file name) = none)
    (claimed : ∃ r ∈ n.routines, Scope.Claims r (Scope.exportKey file name)) :
    ∃ id, (Scope.Symbols.build (build outlines).routines
        (defaultExports (nameFiles [] (Outline.sortByFile outlines)))).export? file name = some id ∧
      (id ∈ n.ids →
        FirstInSource source root n (fun r => Scope.Claims r (Scope.exportKey file name)) id) := by
  have keys := (ordered_defaultExports (nameFiles [] (Outline.sortByFile outlines))).imp ne_of_lt
  rw [Scope.Symbols.export?_build _ keys, Scope.exported?, unbound, Option.none_or]
  have aligned : n.ids.length = n.outline.definitions.length := length_ids member
  have distinct := nodup_ids_build outlines
  have among : ∀ r ∈ n.routines, r ∈ (build outlines).routines := fun r here =>
    List.mem_flatMap.2 ⟨n, member, here⟩
  obtain ⟨claimant, here, claims⟩ := claimed
  obtain ⟨r, found⟩ : ∃ r, ((build outlines).routines.find? fun r =>
      Scope.Claims r (Scope.exportKey file name)) = some r :=
    Option.isSome_iff_exists.1
      (List.find?_isSome.2 ⟨claimant, among claimant here, decide_eq_true claims⟩)
  refine ⟨r.id, by rw [Scope.claimed?, found]; rfl, fun owned => ?_⟩
  -- Identities are unique, so the routine is one of this file.
  rw [← map_id_routines aligned] at owned
  obtain ⟨twin, isHere, sameId⟩ := List.mem_map.1 owned
  obtain rfl := List.inj_on_of_nodup_map distinct (among twin isHere)
    (List.mem_of_find?_eq_some found) sameId
  exact firstInSource_of_find? inOrder same aligned
    (find?_flatMap_of_mem (List.Nodup.of_map _ distinct) member found isHere)

end First

end CallGraph

open CallGraph in
/-- Definitions stand in the order of the source, by the lines on which they begin and by the first
    bytes of their functions.  So the function that stands in for a default export is the first of
    the file in the source, and an export is the first function in the source that claims its name. -/
theorem Outline.ofTree_in_source_order (file : String) (source : SourceText) (root : Node)
    (inOrder : root.Everywhere Node.InOrder) :
    let outline := Outline.ofTree file source root
    ((outline.definitions.map Definition.line).Pairwise (· ≤ ·) ∧
      ((functionPlaces source root).map root.startAt).Pairwise (· ≤ ·)) ∧
    ∀ (outlines : List Outline) (n : NamedOutline),
      let named := nameFiles [] (Outline.sortByFile outlines)
      let symbols := Scope.Symbols.build (CallGraph.build outlines).routines (defaultExports named)
      n ∈ named → n.outline = outline →
      (outline.definitions ≠ [] → declaredDefault? outline = none →
        ∃ id, n.default? = some id ∧ FirstInSource source root n (fun _ => True) id) ∧
      ∀ name, Scope.default? (defaultExports named) (Scope.exportKey file name) = none →
        (∃ r ∈ n.routines, Scope.Claims r (Scope.exportKey file name)) →
        ∃ id, symbols.export? file name = some id ∧ (id ∈ n.ids →
          FirstInSource source root n (fun r => Scope.Claims r (Scope.exportKey file name)) id) := by
  intro outline
  constructor
  · have sorted := sorted_marks source inOrder
    rw [marks_eventsOfTree file, List.zip_map, List.pairwise_map] at sorted
    have lengths := (spans_ofTree file source root).length_eq
    constructor
    · rw [← List.map_fst_zip lengths.le, List.map_map, List.pairwise_map]
      exact sorted.imp And.left
    · rw [← List.map_snd_zip lengths.ge, List.map_map, List.pairwise_map]
      exact sorted.imp And.right
  · intro outlines n named symbols member same
    constructor
    · intro any undeclared
      rw [← same] at any undeclared
      exact default?_firstInSource inOrder same (length_ids member) any undeclared
    · exact fun name unbound claimed => export?_firstInSource inOrder same member unbound claimed

namespace SourceOrder.Sample

open CallCoverage.Sample (leaf)

/-- A function with another one in the default value of its parameter, and a third one that has the
    name of the second. -/
def source : SourceText :=
  .ofString "function run(o = \x7b step: () => 0 \x7d) \x7b\n\x7d\nconst step = () => 1;\n"

def arrow (start : Nat) : Node := ⟨"arrow_function", true, "value", start, start + 7,
  [leaf "formal_parameters" "parameters" start (start + 2),
    leaf "number" "body" (start + 6) (start + 7)]⟩

def parameters : Node := ⟨"formal_parameters", true, "parameters", 12, 35,
  [⟨"assignment_pattern", true, "", 13, 34,
    [leaf "identifier" "left" 13 14,
      ⟨"object", true, "right", 17, 34,
        [⟨"pair", true, "", 19, 32, [leaf "property_identifier" "key" 19 23, arrow 25]⟩]⟩]⟩]⟩

def tree : Node := ⟨"program", true, "", 0, 62,
  [⟨"function_declaration", true, "", 0, 39,
      [leaf "identifier" "name" 9 12, parameters, leaf "statement_block" "body" 36 39]⟩,
    ⟨"lexical_declaration", true, "", 40, 61,
      [⟨"variable_declarator", true, "", 46, 60,
        [leaf "identifier" "name" 46 50, arrow 53]⟩]⟩]⟩

def named : CallGraph.NamedOutline :=
  ⟨Outline.ofTree "a.js" source tree, ["a.js::run", "a.js::step", "a.js::step@L3"]⟩

theorem nameFiles_named :
    CallGraph.nameFiles [] (Outline.sortByFile [named.outline]) = [named] := by
  have ids : CallGraph.nameAll "a.js" [] named.outline.definitions = named.ids := by
    decide +kernel
  have path : named.outline.file = "a.js" := Outline.file_ofTree _ _ _
  rw [Outline.sortByFile, List.mergeSort_singleton, CallGraph.nameFiles, path, ids]
  rfl

theorem routines_named : (CallGraph.build [named.outline]).routines = named.routines := by
  change (CallGraph.nameFiles [] _).flatMap _ = _
  rw [nameFiles_named, List.flatMap_singleton]

end SourceOrder.Sample

open CallGraph SourceOrder.Sample in
/-- The function in the parameters comes before the one below them. -/
theorem Outline.ofTree_in_source_order_parameters :
    tree.Everywhere Node.InOrder ∧
    (named.outline.definitions.map Definition.line = [1, 1, 3] ∧
      (named.outline.definitions.map Definition.line).Pairwise (· ≤ ·)) ∧
    (named.default? = some "a.js::run" ∧
      FirstInSource source tree named (fun _ => True) "a.js::run") ∧
    FirstInSource source tree named
      (fun r => Scope.Claims r (Scope.exportKey "a.js" "step")) "a.js::step" := by
  have inOrder : tree.Everywhere Node.InOrder := by decide +kernel
  obtain ⟨⟨sorted, -⟩, first⟩ := Outline.ofTree_in_source_order "a.js" source tree inOrder
  have member : named ∈ nameFiles [] (Outline.sortByFile [named.outline]) := by
    rw [nameFiles_named]
    exact List.mem_singleton_self _
  obtain ⟨default, exported⟩ := first [named.outline] named member rfl
  rw [nameFiles_named, routines_named] at exported
  obtain ⟨id, isDefault, isFirst⟩ := default (by decide +kernel) (by decide +kernel)
  have run : named.default? = some "a.js::run" := by decide +kernel
  obtain rfl := Option.some.inj (run.symm.trans isDefault)
  obtain ⟨step, isExport, isFirstStep⟩ := exported "step" (by decide +kernel) (by decide +kernel)
  have answer : (Scope.Symbols.build named.routines (defaultExports [named])).export? "a.js" "step"
      = some "a.js::step" := by decide +kernel
  obtain rfl := Option.some.inj (answer.symm.trans isExport)
  exact ⟨inOrder, ⟨by decide +kernel, sorted⟩, ⟨run, isFirst⟩, isFirstStep (by decide)⟩

end LoadBearing
