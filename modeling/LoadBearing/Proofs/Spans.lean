import LoadBearing.Proofs.Course

/-! # Spans of nested functions

A definition begins at the line of its anchor, which is the function or the node that holds it, and
ends at the line of the function's last byte.  Where the bytes of every child are among those of its
parent, the anchor of an inner function is not above the outer function, since it is at most one step
above the inner one.  Everything inside a function is therefore on its lines.
-/

namespace LoadBearing

/-! ## Ranges of bytes -/

namespace Node

def Everywhere (P : Node → Prop) (root : Node) : Prop :=
  ∀ place n, root.at? place = some n → P n

mutual

def every (test : Node → Bool) : Node → Bool
  | ⟨kind, named, field, start, stop, children⟩ =>
    test ⟨kind, named, field, start, stop, children⟩ && everyAll test children

def everyAll (test : Node → Bool) : List Node → Bool
  | [] => true
  | n :: rest => n.every test && everyAll test rest

end

variable {P : Node → Prop} {root n m : Node} {place inner : List Nat}

theorem everyAll_iff {test : Node → Bool} {nodes : List Node} :
    everyAll test nodes = true ↔ ∀ n ∈ nodes, n.every test = true := by
  induction nodes with
  | nil => simp [everyAll]
  | cons n rest ih => simp [everyAll, ih]

theorem every_iff {test : Node → Bool} {root : Node} :
    root.every test = true ↔ test root = true ∧ ∀ child ∈ root.children, child.every test = true := by
  obtain ⟨kind, named, field, start, stop, children⟩ := root
  rw [every, Bool.and_eq_true, everyAll_iff]

theorem Everywhere.of_at? (holds : root.Everywhere P) (found : root.at? place = some n) :
    n.Everywhere P := by
  intro inner m below
  refine holds (place ++ inner) m ?_
  rw [at?_append, found, Option.bind_some, below]

theorem Everywhere.child (holds : root.Everywhere P) (member : n ∈ root.children) :
    n.Everywhere P := by
  obtain ⟨position, isChild⟩ := List.getElem?_of_mem member
  have found : root.at? [position] = some n := by rw [at?, isChild]; rfl
  exact holds.of_at? found

theorem everywhere_iff_every [DecidablePred P] :
    root.Everywhere P ↔ root.every (fun n => P n) = true := by
  constructor
  · -- Children are in a list, so the induction is on the size.
    induction size : root.size using Nat.strongRecOn generalizing root with
    | ind bound ih =>
      intro holds
      refine every_iff.2 ⟨decide_eq_true (holds [] root rfl), fun child member => ?_⟩
      exact ih child.size (size ▸ size_child_lt member) rfl (holds.child member)
  · intro passes place n found
    induction place generalizing root with
    | nil =>
      obtain rfl := Option.some.inj found
      exact of_decide_eq_true (every_iff.1 passes).1
    | cons position rest ih =>
      obtain ⟨child, isChild, below⟩ := Option.bind_eq_some_iff.1 found
      exact ih ((every_iff.1 passes).2 child (List.mem_of_getElem? isChild)) below

instance [DecidablePred P] (root : Node) : Decidable (root.Everywhere P) :=
  decidable_of_iff _ everywhere_iff_every.symm

def Encloses (n : Node) : Prop :=
  n.start ≤ n.stop ∧ ∀ child ∈ n.children, n.start ≤ child.start ∧ child.stop ≤ n.stop

instance : DecidablePred Encloses := fun _ => inferInstanceAs (Decidable (_ ∧ _))

theorem range_of_at? (encloses : root.Everywhere Encloses) (found : root.at? place = some n) :
    root.start ≤ n.start ∧ n.start ≤ n.stop ∧ n.stop ≤ root.stop := by
  induction place generalizing root with
  | nil =>
    obtain rfl := Option.some.inj found
    exact ⟨le_rfl, (encloses [] root rfl).1, le_rfl⟩
  | cons position rest ih =>
    obtain ⟨child, isChild, below⟩ := Option.bind_eq_some_iff.1 found
    have member := List.mem_of_getElem? isChild
    obtain ⟨left, right⟩ := (encloses [] root rfl).2 child member
    obtain ⟨low, range, high⟩ := ih (encloses.child member) below
    exact ⟨left.trans low, range, high.trans right⟩

/-- What lies further down has its bytes among those of what is above it. -/
theorem range_of_prefix (encloses : root.Everywhere Encloses) (above : place <+: inner)
    (found : root.at? place = some n) (below : root.at? inner = some m) :
    n.start ≤ m.start ∧ m.start ≤ m.stop ∧ m.stop ≤ n.stop := by
  obtain ⟨rest, rfl⟩ := above
  rw [at?_append, found, Option.bind_some] at below
  exact range_of_at? (encloses.of_at? found) below

end Node

theorem SourceText.lineAt_mono (source : SourceText) {left right : Nat} (le : left ≤ right) :
    source.lineAt left ≤ source.lineAt right :=
  Nat.add_le_add_right ((List.take_sublist_take_left le).count_le _) 1

/-! ## Anchors -/

/-- A line is the one where the node at a place begins, or the node that holds it. -/
def Anchored (source : SourceText) (root : Node) (place : List Nat) (line : Nat) : Prop :=
  ∃ anchor n, anchor <+: place ∧ place.length ≤ anchor.length + 1 ∧ root.at? anchor = some n ∧
    line = source.lineAt n.start

section Anchors

variable {source : SourceText} {root n : Node} {place : List Nat} {around : Surroundings}

theorem Anchored.within {inner : List Nat} {line : Nat} (anchored : Anchored source n inner line)
    (found : root.at? place = some n) : Anchored source root (place ++ inner) line := by
  obtain ⟨anchor, m, above, short, below, line⟩ := anchored
  refine ⟨place ++ anchor, m, (List.prefix_append_right_inj place).2 above, ?_, ?_, line⟩
  · rw [List.length_append, List.length_append]
    omega
  · rw [Node.at?_append, found, Option.bind_some, below]

theorem Contribution.anchored {child : Part n} {steps : List (Step n)}
    (contribution : Contribution source child steps) {callable : Spot n} {d : Definition}
    {isMember : Bool} (member : Step.define callable d isMember ∈ steps) :
    Anchored source n callable.place d.line := by
  cases contribution with
  | quiet quiet => exact (quiet _ member).elim
  | visit => cases List.mem_singleton.1 member
  | define _ line quiet =>
    rcases List.mem_cons.1 member with same | later
    · cases same
      exact ⟨child.place, child.node, List.prefix_refl _, Nat.le_succ _, child.found, line⟩
    · exact (quiet _ later).elim

/-- A plan defines functions that begin where they stand, or where the node begins. -/
theorem Course.anchored {steps : List (Step n)} (course : Course source n steps)
    {callable : Spot n} {d : Definition} {isMember : Bool}
    (member : Step.define callable d isMember ∈ steps) :
    Anchored source n callable.place d.line := by
  cases course with
  | children quiet _ each =>
    rcases List.mem_append.1 member with before | later
    · exact (quiet _ before).elim
    · obtain ⟨child, isChild, contributed⟩ := List.mem_flatMap.1 later
      exact (each child isChild).anchored contributed
  | define _ short line quiet =>
    rcases List.mem_cons.1 member with same | later
    · cases same
      exact ⟨[], n, List.nil_prefix, by simpa using short, rfl, line⟩
    · exact (quiet _ later).elim
  | enter => cases List.mem_singleton.1 member

theorem size_lt_of_mem_outlook {step : Step n} {target : Spot n × Surroundings}
    (among : target ∈ step.outlook around place) : target.1.node.size < n.size := by
  cases step with
  | visit part =>
    obtain rfl := List.mem_singleton.1 among
    exact part.size_lt
  | define callable d isMember =>
    obtain ⟨part, -, rfl⟩ := List.mem_map.1 among
    exact part.size_lt.trans_le callable.size_le
  | enter name body =>
    obtain ⟨part, -, rfl⟩ := List.mem_map.1 among
    exact part.size_lt
  | call | branch | bind | exportDefault => cases among

/-- What holds of the events of every step at its own node holds of all events.  The steps are those
    of nodes with an invariant, which each step hands on to the nodes it looks at. -/
theorem forall_mem_events_of {P : Event → Prop} {I : List Nat → Node → Surroundings → Prop}
    (own : ∀ place n around, I place n around →
      ∀ step ∈ plan source around.parent around.owner.isSome n, ∀ e ∈ step.own around place, P e)
    (next : ∀ place n around, I place n around →
      ∀ step ∈ plan source around.parent around.owner.isSome n,
        ∀ target ∈ step.outlook around place, I (place ++ target.1.place) target.1.node target.2)
    (holds : I place n around) : ∀ e ∈ events source around place n, P e := by
  induction size : n.size using Nat.strongRecOn generalizing n around place with
  | ind bound ih =>
    intro e member
    rw [events_eq, mem_flatMap_stepEvents] at member
    rcases member with ⟨step, isStep, here⟩ | ⟨step, isStep, target, among, below⟩
    · exact own place n around holds step isStep e here
    · exact ih target.1.node.size (size ▸ size_lt_of_mem_outlook among)
        (next place n around holds step isStep target among) rfl e below

/-- What holds of the events of every step at its own node holds of all events. -/
theorem forall_mem_events {P : Event → Prop}
    (own : ∀ n place around, root.at? place = some n →
      ∀ step ∈ plan source around.parent around.owner.isSome n, ∀ e ∈ step.own around place, P e)
    (found : root.at? place = some n) : ∀ e ∈ events source around place n, P e :=
  forall_mem_events_of (I := fun place n _ => root.at? place = some n)
    (fun place n around => own n place around)
    (fun _ _ _ found _ _ target _ => at?_part found target.1) found

theorem anchored_eventsOfTree {d : Definition}
    (member : .define place d ∈ eventsOfTree source root) : Anchored source root place d.line := by
  have own : ∀ n place around, root.at? place = some n →
      ∀ step ∈ plan source around.parent around.owner.isSome n, ∀ e ∈ step.own around place,
        ∀ inner d, e = .define inner d → Anchored source root inner d.line := by
    rintro n place around found step isStep e among inner d rfl
    cases step with
    | define callable plain isMember =>
      obtain ⟨rfl, rfl⟩ := Event.define.inj (List.mem_singleton.1 among)
      have anchored := ((plan_course source _ _ n).anchored isStep).within found
      split <;> exact anchored
    | call => cases List.mem_singleton.1 among
    | branch => cases List.mem_singleton.1 among
    | visit | enter | bind | exportDefault => cases among
  -- The place and the definition are bound inside, so that all events can be asked at once.
  obtain ⟨part, -, below⟩ := List.mem_flatMap.1 member
  exact forall_mem_events own part.found _ below place d rfl

end Anchors

/-! ## Spans -/

/-- A definition spans the function at a place.  It begins where the function or the node that holds
    it begins, and it ends where the function ends. -/
structure Spans (source : SourceText) (root : Node) (d : Definition) (place : List Nat) : Prop where
  anchored : Anchored source root place d.line
  node : ∃ n, root.at? place = some n ∧ d.endLine = max (source.lineAt n.stop) d.line

theorem spans_ofTree (file : String) (source : SourceText) (root : Node) :
    List.Forall₂ (Spans source root) (Outline.ofTree file source root).definitions
      (functionPlaces source root) := by
  refine forall₂_places (agrees_ofTree file source root).definitions fun d e member records => ?_
  have defined := List.mem_of_mem_filter member
  obtain ⟨n, found, -, endLine⟩ := (describesFunction_of_records defined records).node
  cases e with
  | define place plain =>
    obtain ⟨same, -⟩ := records
    have line : d.line = plain.line := by rw [same]
    exact ⟨line ▸ anchored_eventsOfTree defined, n, found, endLine⟩
  | call => cases records
  | branch => cases records

namespace Spans

variable {source : SourceText} {root n : Node} {outer inner : Definition}
  {place below : List Nat}

theorem line_le (spans : Spans source root outer place) (encloses : root.Everywhere Node.Encloses)
    (found : root.at? place = some n) : outer.line ≤ source.lineAt n.start := by
  obtain ⟨anchor, m, above, -, isAnchor, line⟩ := spans.anchored
  rw [line]
  exact source.lineAt_mono (Node.range_of_prefix encloses above isAnchor found).1

theorem le_endLine (spans : Spans source root outer place) (found : root.at? place = some n) :
    source.lineAt n.stop ≤ outer.endLine := by
  obtain ⟨m, again, endLine⟩ := spans.node
  obtain rfl := Option.some.inj (found.symm.trans again)
  rw [endLine]
  exact le_max_left _ _

theorem line_le_endLine (spans : Spans source root outer place) : outer.line ≤ outer.endLine := by
  obtain ⟨m, -, endLine⟩ := spans.node
  rw [endLine]
  exact le_max_right _ _

/-- Whatever begins inside a function begins on one of its lines. -/
theorem contains_line (spans : Spans source root outer place)
    (encloses : root.Everywhere Node.Encloses) (above : place <+: below)
    (found : root.at? below = some n) :
    outer.line ≤ source.lineAt n.start ∧ source.lineAt n.start ≤ outer.endLine := by
  obtain ⟨m, isFunction, -⟩ := spans.node
  obtain ⟨left, range, right⟩ := Node.range_of_prefix encloses above isFunction found
  exact ⟨(spans.line_le encloses isFunction).trans (source.lineAt_mono left),
    (source.lineAt_mono (range.trans right)).trans (spans.le_endLine isFunction)⟩

/-- A function in another one has its lines among those of the other one. -/
theorem contains (spans : Spans source root outer place) (nested : Spans source root inner below)
    (encloses : root.Everywhere Node.Encloses) (above : place <+: below) (proper : place ≠ below) :
    outer.line ≤ inner.line ∧ inner.endLine ≤ outer.endLine := by
  obtain ⟨anchor, m, around, short, isAnchor, line⟩ := nested.anchored
  -- The anchor of the inner function is not above the outer one.
  have deeper : place <+: anchor := by
    refine List.prefix_of_prefix_length_le above around ?_
    have shorter : place.length < below.length :=
      lt_of_le_of_ne above.length_le fun same => proper (above.eq_of_length same)
    omega
  obtain ⟨begins, within⟩ := spans.contains_line encloses deeper isAnchor
  obtain ⟨f, isFunction, -⟩ := spans.node
  obtain ⟨g, isInner, endLine⟩ := nested.node
  obtain ⟨-, -, right⟩ := Node.range_of_prefix encloses above isFunction isInner
  refine ⟨line ▸ begins, ?_⟩
  rw [endLine, line]
  exact max_le ((source.lineAt_mono right).trans (spans.le_endLine isFunction)) within

end Spans

theorem Routine.overlaps_of_contains {id other file : String} {outer inner : Definition}
    (range : inner.line ≤ inner.endLine)
    (contains : outer.line ≤ inner.line ∧ inner.endLine ≤ outer.endLine) {start stop : Nat}
    (touches : (ofDefinition id file inner).overlaps start stop = true) :
    (ofDefinition other file outer).overlaps start stop = true := by
  rw [overlaps, Bool.and_eq_true, decide_eq_true_iff, decide_eq_true_iff] at touches ⊢
  obtain ⟨starts, stops⟩ := touches
  have last : (ofDefinition id file inner).endLine = inner.endLine := max_eq_left range
  rw [last] at starts
  exact ⟨(starts.trans contains.2).trans (le_max_left _ _), contains.1.trans stops⟩

/-- The spans of functions respect nesting.  Every call is on a line of its caller, and a function in
    another one has its lines among those of the other one, so a range of lines that touches the
    inner function touches the outer one too. -/
theorem Outline.ofTree_spans_nest (file : String) (source : SourceText) (root : Node)
    (encloses : root.Everywhere Node.Encloses) :
    let outline := Outline.ofTree file source root
    let functions := functionPlaces source root
    List.Forall₂ (Spans source root) outline.definitions functions ∧
    (∀ site ∈ outline.sites, ∃ caller, outline.definitions[site.caller]? = some caller ∧
      caller.line ≤ site.line ∧ site.line ≤ caller.endLine) ∧
    ∀ inner ∈ outline.definitions.zip functions, ∀ outer ∈ outline.definitions.zip functions,
      outer.2 <+: inner.2 → outer.2 ≠ inner.2 →
      (outer.1.line ≤ inner.1.line ∧ inner.1.endLine ≤ outer.1.endLine) ∧
      ∀ id other start stop, (Routine.ofDefinition id file inner.1).overlaps start stop = true →
        (Routine.ofDefinition other file outer.1).overlaps start stop = true := by
  intro outline functions
  have spans : List.Forall₂ (Spans source root) outline.definitions functions :=
    spans_ofTree file source root
  obtain ⟨lengths, each⟩ := List.forall₂_iff_zip.1 spans
  -- The caller of a site is a function around the call.
  have onLine : ∀ site place, DescribesCall source root site place →
      ∃ caller, outline.definitions[site.caller]? = some caller ∧
        caller.line ≤ site.line ∧ site.line ≤ caller.endLine := by
    intro site place describes
    obtain ⟨n, found, -, -, line⟩ := describes.node
    obtain ⟨holder, atCaller, -, above, -⟩ := describes.caller
    have inRange : site.caller < outline.definitions.length :=
      (List.getElem?_eq_some_iff.1 atCaller).1.trans_eq lengths.symm
    obtain ⟨caller, isCaller⟩ : ∃ caller, outline.definitions[site.caller]? = some caller :=
      ⟨_, List.getElem?_eq_getElem inRange⟩
    have registered : (caller, holder) ∈ outline.definitions.zip functions :=
      List.mem_of_getElem? (List.getElem?_zip_eq_some.2 ⟨isCaller, atCaller⟩)
    exact ⟨caller, isCaller, line ▸ (each registered).contains_line encloses above found⟩
  refine ⟨spans, ?_, fun inner isInner outer isOuter above proper => ?_⟩
  · have sites := forall₂_places (agrees_ofTree file source root).sites fun site e member =>
      describesCall_of_records (List.mem_of_mem_filter member)
    exact ((List.forall₂_and_left _ _).1
      (sites.imp fun site place describes => ⟨onLine site place describes, describes⟩)).1
  · have contains := (each isOuter).contains (each isInner) encloses above proper
    exact ⟨contains, fun id other start stop =>
      Routine.overlaps_of_contains (each isInner).line_le_endLine contains⟩

namespace Spans.Sample

open CallCoverage.Sample (leaf)

/-- A function with a function in it, both bound to names, and a call in the inner one. -/
def source : SourceText :=
  .ofString "const outer = function () \x7b\n  const inner = () =>\n    g();\n\x7d;\n"

def arrow : Node := ⟨"arrow_function", true, "value", 44, 57,
  [leaf "formal_parameters" "parameters" 44 46,
    ⟨"call_expression", true, "body", 54, 57,
      [leaf "identifier" "function" 54 55, leaf "arguments" "arguments" 55 57]⟩]⟩

def function : Node := ⟨"function_expression", true, "value", 14, 60,
  [leaf "formal_parameters" "parameters" 23 25,
    ⟨"statement_block", true, "body", 26, 60,
      [⟨"lexical_declaration", true, "", 30, 58,
        [⟨"variable_declarator", true, "", 36, 57, [leaf "identifier" "name" 36 41, arrow]⟩]⟩]⟩]⟩

def tree : Node := ⟨"program", true, "", 0, 62,
  [⟨"lexical_declaration", true, "", 0, 61,
    [⟨"variable_declarator", true, "", 6, 60, [leaf "identifier" "name" 6 11, function]⟩]⟩]⟩

def outer : Definition := .spanning "outer" .function 1 4

def inner : Definition := .spanning "inner" .arrow 2 3

theorem outline_tree :
    ((Outline.ofTree "a.js" source tree).definitions = [outer, inner] ∧
      functionPlaces source tree = [[0, 0, 1], [0, 0, 1, 1, 0, 0, 1]]) ∧
    (Outline.ofTree "a.js" source tree).sites = [⟨1, "g", none, 3⟩] := by
  decide +kernel

end Spans.Sample

open Spans.Sample in
theorem Outline.ofTree_spans_nest_arrow :
    tree.Everywhere Node.Encloses ∧
    (∃ caller, (Outline.ofTree "a.js" source tree).definitions[1]? = some caller ∧
      caller.line ≤ 3 ∧ 3 ≤ caller.endLine) ∧
    (outer.line ≤ inner.line ∧ inner.endLine ≤ outer.endLine) ∧
    ((Routine.ofDefinition "inner" "a.js" inner).overlaps 3 3 = true ∧
      (Routine.ofDefinition "outer" "a.js" outer).overlaps 3 3 = true) := by
  have encloses : tree.Everywhere Node.Encloses := by decide +kernel
  obtain ⟨⟨definitions, functions⟩, sites⟩ := outline_tree
  obtain ⟨-, calls, nested⟩ := Outline.ofTree_spans_nest "a.js" source tree encloses
  have onLine := calls ⟨1, "g", none, 3⟩ (by simp [sites])
  obtain ⟨contains, touches⟩ := nested (inner, [0, 0, 1, 1, 0, 0, 1])
    (by simp [definitions, functions]) (outer, [0, 0, 1]) (by simp [definitions, functions])
    (by decide) (by decide)
  have inside : (Routine.ofDefinition "inner" "a.js" inner).overlaps 3 3 = true := by decide
  exact ⟨encloses, onLine, contains, inside, touches "inner" "outer" 3 3 inside⟩

end LoadBearing
