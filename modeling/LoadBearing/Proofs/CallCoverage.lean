import LoadBearing.Proofs.View

/-! # Which calls an outline records

Not every call inside a function is recorded.  A call of a name is recorded once if the views along
the way from the function lead to it, and not at all otherwise.

`Watched` compares what a walk comes to in a node with what the view of the node shows.  It holds of
every node by induction on the tree: a step looks at targets that the view shows, and what is below
a target is seen from the node as from the target.
-/

namespace LoadBearing

/-! ## Events and views -/

def ownedCalls (es : List Event) : List (List Nat) :=
  (es.filter Event.isOwnedCall).map Event.place

theorem mem_ownedCalls {es : List Event} {place : List Nat} :
    place ∈ ownedCalls es ↔
      ∃ function name receiver line, Event.call place (some function) name receiver line ∈ es := by
  rw [ownedCalls, List.mem_map]
  constructor
  · rintro ⟨e, member, rfl⟩
    obtain ⟨inEvents, owned⟩ := List.mem_filter.1 member
    cases e with
    | define => cases owned
    | branch => cases owned
    | call place owner name receiver line =>
      cases owner with
      | none => cases owned
      | some function => exact ⟨function, name, receiver, line, inEvents⟩
  · rintro ⟨function, name, receiver, line, member⟩
    exact ⟨_, List.mem_filter.2 ⟨member, rfl⟩, rfl⟩

def Step.own {n : Node} (around : Surroundings) (place : List Nat) : Step n → List Event
  | .define callable d isMember => [.define (place ++ callable.place)
      (if isMember then { d with owner := around.classes.head? } else d)]
  | .call name receiver line => [.call place around.owner name receiver line]
  | .branch => [.branch place around.owner]
  | .visit _ | .enter _ _ | .bind _ _ | .exportDefault _ => []

theorem stepEvents_eq (source : SourceText) (around : Surroundings) (place : List Nat) {n : Node}
    (step : Step n) :
    stepEvents source around place step = step.own around place ++
      (step.outlook around place).flatMap fun target =>
        events source target.2 (place ++ target.1.place) target.1.node := by
  cases step with
  | visit part => simp [stepEvents, Step.own, Step.outlook]
  | define callable d isMember =>
    simp [stepEvents, Step.own, Step.outlook, List.flatMap_map, Spot.through]
  | enter name body => simp [stepEvents, Step.own, Step.outlook, List.flatMap_map]
  | call | branch | bind | exportDefault => simp [stepEvents, Step.own, Step.outlook]

/-- A call at a place below a node, of something with a name. -/
def CallAt (source : SourceText) (n : Node) (place : List Nat) : Prop :=
  ∃ call, n.at? place = some call ∧ call.construct = .call ∧
    ((call.part? "function").bind (Plan.callee? source)).isSome = true

section Watched

variable {source : SourceText} {n : Node} {around : Surroundings} {place : List Nat}
  {look : Part n → Option View}

/-- What a walk comes to in a node is what the view of the node shows. -/
structure Watched (source : SourceText) (around : Surroundings) (place : List Nat) (n : Node) :
    Prop where
  calls : ∀ inner, place ++ inner ∈ ownedCalls (events source around place n) ↔
    (View.node around.owner.isSome).at? source n inner = some (.node true) ∧ CallAt source n inner
  functions : ∀ inner, place ++ inner ∈ callables (events source around place n) →
    ∃ m, n.at? inner = some m ∧ ∀ below ≠ [],
      (View.node around.owner.isSome).at? source n (inner ++ below)
        = View.callable.at? source m below

theorem callAt_append {m : Node} {outer : List Nat} (found : n.at? outer = some m)
    (inner : List Nat) : CallAt source n (outer ++ inner) ↔ CallAt source m inner := by
  simp only [CallAt, Node.at?_append, found, Option.bind_some]

theorem exists_append_of_mem_events {target : Spot n × Surroundings} {e : Event}
    (member : e ∈ events source target.2 (place ++ target.1.place) target.1.node)
    {inner : List Nat} (placed : e.place = place ++ inner) :
    ∃ rest, inner = target.1.place ++ rest := by
  obtain ⟨region, isRegion, below⟩ :=
    (lexical_events source target.1.node target.2 (place ++ target.1.place)).inside e member
  rw [List.mem_singleton.1 isRegion, placed, List.prefix_append_right_inj] at below
  obtain ⟨rest, same⟩ := below
  exact ⟨rest, same.symm⟩

theorem proper_of_descend {view : View} {inner : List Nat}
    (shown : View.descend source look inner = some view) : inner ≠ [] := by
  rintro rfl
  cases shown

theorem descend_target {target : Spot n × Surroundings}
    (shown : View.descend source look target.1.place = some (.node target.2.owner.isSome))
    (inner : List Nat) :
    View.descend source look (target.1.place ++ inner)
      = (View.node target.2.owner.isSome).at? source target.1.node inner := by
  rw [View.descend_append look (proper_of_descend shown) target.1.found, shown, Option.bind_some]

variable {steps : List (Step n)}

theorem mem_flatMap_stepEvents {e : Event} :
    e ∈ steps.flatMap (stepEvents source around place) ↔
      (∃ step ∈ steps, e ∈ step.own around place) ∨
      ∃ step ∈ steps, ∃ target ∈ step.outlook around place,
        e ∈ events source target.2 (place ++ target.1.place) target.1.node := by
  simp only [List.mem_flatMap, stepEvents_eq, List.mem_append, and_or_left, exists_or]

/-- The calls that some steps come to are their own and those that the look shows. -/
theorem mem_ownedCalls_steps (renders : View.Renders source around place look [] steps)
    (each : ∀ step ∈ steps, ∀ target ∈ step.outlook around place,
      Watched source target.2 (place ++ target.1.place) target.1.node) (inner : List Nat) :
    place ++ inner ∈ ownedCalls (steps.flatMap (stepEvents source around place)) ↔
      (inner = [] ∧ around.owner.isSome = true ∧
        ∃ name receiver line, Step.call name receiver line ∈ steps) ∨
      (View.descend source look inner = some (.node true) ∧ CallAt source n inner) := by
  rw [mem_ownedCalls]
  constructor
  · rintro ⟨function, name, receiver, line, member⟩
    rcases mem_flatMap_stepEvents.1 member with
      ⟨step, isStep, own⟩ | ⟨step, isStep, target, among, member⟩
    · left
      cases step with
      | visit | enter | bind | exportDefault | define | branch => simp [Step.own] at own
      | call name receiver line =>
        simp only [Step.own, List.mem_singleton, Event.call.injEq, List.append_right_eq_self] at own
        exact ⟨own.1, by simp [← own.2.1], name, receiver, line, isStep⟩
    · right
      have shown := renders.shows step isStep target among
      obtain ⟨rest, rfl⟩ := exists_append_of_mem_events member rfl
      rw [descend_target shown, callAt_append target.1.found,
        ← (each step isStep target among).calls, mem_ownedCalls, List.append_assoc]
      exact ⟨_, _, _, _, member⟩
  · rintro (⟨rfl, inFunction, name, receiver, line, isStep⟩ | ⟨shown, call⟩)
    · obtain ⟨function, owner⟩ := Option.isSome_iff_exists.1 inFunction
      refine ⟨function, name, receiver, line, mem_flatMap_stepEvents.2 (.inl ⟨_, isStep, ?_⟩)⟩
      simp [Step.own, owner]
    · obtain ⟨step, isStep, target, among, rest, rfl⟩ := renders.covers inner true shown
      rw [descend_target (renders.shows step isStep target among)] at shown
      rw [callAt_append target.1.found] at call
      have member := ((each step isStep target among).calls rest).2 ⟨shown, call⟩
      rw [mem_ownedCalls, List.append_assoc] at member
      obtain ⟨function, name, receiver, line, member⟩ := member
      exact ⟨function, name, receiver, line,
        mem_flatMap_stepEvents.2 (.inr ⟨step, isStep, target, among, member⟩)⟩

/-- The functions that some steps define are shown for their parameters and their body. -/
theorem mem_callables_steps (renders : View.Renders source around place look [] steps)
    (each : ∀ step ∈ steps, ∀ target ∈ step.outlook around place,
      Watched source target.2 (place ++ target.1.place) target.1.node) {inner : List Nat}
    (defined : place ++ inner ∈ callables (steps.flatMap (stepEvents source around place))) :
    ∃ m, n.at? inner = some m ∧ ∀ below ≠ [],
      View.descend source look (inner ++ below) = View.callable.at? source m below := by
  obtain ⟨d, member⟩ := mem_callables.1 defined
  rcases mem_flatMap_stepEvents.1 member with
    ⟨step, isStep, own⟩ | ⟨step, isStep, target, among, member⟩
  · cases step with
    | visit | enter | bind | exportDefault | call | branch => simp [Step.own] at own
    | define callable d isMember =>
      simp only [Step.own, List.mem_singleton, Event.define.injEq,
        List.append_cancel_left_eq] at own
      rw [own.1]
      exact ⟨callable.node, callable.found, renders.defines callable d isMember isStep⟩
  · obtain ⟨rest, rfl⟩ := exists_append_of_mem_events member rfl
    have inTarget : place ++ target.1.place ++ rest ∈ callables
        (events source target.2 (place ++ target.1.place) target.1.node) := by
      rw [List.append_assoc]
      exact mem_callables.2 ⟨d, member⟩
    obtain ⟨m, found, seen⟩ := (each step isStep target among).functions rest inTarget
    refine ⟨m, by rw [Node.at?_append, target.1.found, Option.bind_some, found], ?_⟩
    intro below proper
    rw [List.append_assoc, descend_target (renders.shows step isStep target among)]
    exact seen below proper

/-- A plan has a call just if its node is one, of something with a name. -/
theorem exists_call_mem_plan_iff {parent : String} {inside : Bool} :
    (∃ name receiver line, Step.call name receiver line ∈ plan source parent inside n) ↔
      CallAt source n [] := by
  constructor
  · rintro ⟨name, receiver, line, member⟩
    have shape := plan_shape source parent inside n
    generalize plan source parent inside n = steps at shape member
    have notThrough : Step.call name receiver line ∉ Plan.lookThrough n := by
      simp [Plan.lookThrough]
    cases shape with
    | tame tame => exact (tame.1 _ member).elim
    | call isCall callee => exact ⟨n, rfl, isCall, by rw [callee]; rfl⟩
    | branch => simp [notThrough] at member
  · rintro ⟨call, found, isCall, named⟩
    obtain rfl : n = call := Option.some.inj found
    obtain ⟨⟨name, receiver⟩, callee⟩ := Option.isSome_iff_exists.1 named
    refine ⟨name, receiver, source.lineAt n.start, ?_⟩
    simp [plan, isCall, Plan.call, callee]

theorem watched (source : SourceText) (around : Surroundings) (place : List Nat) (n : Node) :
    Watched source around place n := by
  induction size : n.size using Nat.strongRecOn generalizing n around place with
  | ind bound ih =>
    have renders := View.renders_plan source around place n
    have each : ∀ step ∈ plan source around.parent around.owner.isSome n,
        ∀ target ∈ step.outlook around place,
          Watched source target.2 (place ++ target.1.place) target.1.node := by
      intro step isStep target among
      have proper := proper_of_descend (renders.shows step isStep target among)
      have smaller : target.1.node.size < n.size := Part.size_lt ⟨target.1, "", proper⟩
      exact ih _ (size ▸ smaller) target.2 _ target.1.node rfl
    constructor
    · -- At the node itself the plan decides, below it the view.
      intro inner
      rw [events_eq, mem_ownedCalls_steps renders each, exists_call_mem_plan_iff]
      cases inner with
      | nil => simp [View.descend, View.at?]
      | cons position rest =>
        rw [View.at?_eq_descend _ _ (by simp)]
        simp [View.into]
    · intro inner defined
      rw [events_eq] at defined
      obtain ⟨m, found, seen⟩ := mem_callables_steps renders each defined
      refine ⟨m, found, fun below proper => ?_⟩
      rw [View.at?_eq_descend _ _ (by simp [proper])]
      exact seen below proper

end Watched

/-! ## Trees -/

/-- A call of a name, or of a property of something. -/
def Node.callsName (call : Node) : Bool :=
  call.kind = "call_expression" && (call.part? "function").any fun function =>
    function.kind = "identifier" ||
      (function.kind = "member_expression" && (function.part? "property").isSome)

theorem callAt_of_callsName {source : SourceText} {n call : Node} {place : List Nat}
    (found : n.at? place = some call) (names : call.callsName = true) : CallAt source n place := by
  simp only [Node.callsName, Bool.and_eq_true, decide_eq_true_eq, Option.any_eq_true,
    Bool.or_eq_true] at names
  obtain ⟨isCall, function, isFunction, named⟩ := names
  refine ⟨call, found, by rw [Node.construct, isCall]; rfl, ?_⟩
  rw [isFunction, Option.bind_some, Plan.callee?]
  rcases named with identifier | ⟨member, property⟩
  · simp [identifier]
  · simp [member, property]

section Tree

variable {source : SourceText} {root : Node}

theorem eventsOfTree_eq (source : SourceText) (root : Node) :
    eventsOfTree source root
      = (Plan.lookThrough root).flatMap (stepEvents source ⟨"", none, []⟩ []) := by
  simp [eventsOfTree, Plan.lookThrough, List.flatMap_map, stepEvents]

theorem mem_callPlaces_iff {place : List Nat} :
    place ∈ callPlaces source root ↔
      View.descend source (View.intoItems false : Part root → Option View) place
        = some (.node true) ∧ CallAt source root place := by
  have renders := View.Renders.lookThrough source ⟨"", none, []⟩ [] root
  have calls := mem_ownedCalls_steps renders (fun _ _ target _ => watched source target.2 _ _) place
  rw [← eventsOfTree_eq] at calls
  simpa [callPlaces, ownedCalls] using calls

theorem descend_function {function : List Nat} (defined : function ∈ functionPlaces source root) :
    ∃ callable, root.at? function = some callable ∧ ∀ below ≠ [],
      View.descend source (View.intoItems false : Part root → Option View) (function ++ below)
        = View.callable.at? source callable below := by
  have renders := View.Renders.lookThrough source ⟨"", none, []⟩ [] root
  refine mem_callables_steps renders (fun _ _ target _ => watched source target.2 _ _) ?_
  rwa [← eventsOfTree_eq]

end Tree

/-- The sites of an outline stand for different calls of the tree, in step.  Of the calls of a name
    below a function, those that the view of the function shows are recorded once, and the others
    are not. -/
theorem Outline.ofTree_records_calls_in_view (file : String) (source : SourceText) (root : Node) :
    List.Forall₂ (DescribesCall source root) (Outline.ofTree file source root).sites
      (callPlaces source root) ∧
    ∀ function ∈ functionPlaces source root, ∀ callable, root.at? function = some callable →
      ∀ place call, place ≠ [] → callable.at? place = some call → call.callsName = true →
        (callPlaces source root).count (function ++ place)
          = if View.callable.at? source callable place = some (.node true) then 1 else 0 := by
  refine ⟨forall₂_places (agrees_ofTree file source root).sites fun site e member =>
    describesCall_of_records (List.mem_of_mem_filter member), ?_⟩
  intro function defined callable found place call proper below names
  obtain ⟨_, again, seen⟩ := descend_function defined
  obtain rfl := Option.some.inj (found.symm.trans again)
  have isCall : CallAt source root (function ++ place) :=
    (callAt_append found place).2 (callAt_of_callsName below names)
  have recorded : function ++ place ∈ callPlaces source root ↔
      View.callable.at? source callable place = some (.node true) := by
    rw [mem_callPlaces_iff, seen place proper]
    exact and_iff_left isCall
  split
  next shown => exact List.count_eq_one_of_mem (nodup_callPlaces source root) (recorded.2 shown)
  next hidden => exact List.count_eq_zero_of_not_mem (mt recorded.1 hidden)

namespace CallCoverage.Sample

def leaf (kind field : String) (start stop : Nat) : Node := ⟨kind, true, field, start, stop, []⟩

/-- A function that takes `a` out of what `h` gives, or else from `g`. -/
def source : SourceText := .ofString "function f(o) { const { a = g() } = h(o); }\n"

def defaultCall : Node := ⟨"call_expression", true, "right", 28, 31,
  [leaf "identifier" "function" 28 29, leaf "arguments" "arguments" 29 31]⟩

def valueCall : Node := ⟨"call_expression", true, "value", 36, 40,
  [leaf "identifier" "function" 36 37,
    ⟨"arguments", true, "arguments", 37, 40, [leaf "identifier" "" 38 39]⟩]⟩

def declarator : Node := ⟨"variable_declarator", true, "", 22, 40,
  [⟨"object_pattern", true, "name", 22, 33,
    [⟨"object_assignment_pattern", true, "", 24, 31,
      [leaf "shorthand_property_identifier_pattern" "left" 24 25, defaultCall]⟩]⟩, valueCall]⟩

def function : Node := ⟨"function_declaration", true, "", 0, 43,
  [leaf "identifier" "name" 9 10,
    ⟨"formal_parameters", true, "parameters", 10, 13, [leaf "identifier" "" 11 12]⟩,
    ⟨"statement_block", true, "body", 14, 43,
      [⟨"lexical_declaration", true, "", 16, 41,
        [⟨"const", false, "kind", 16, 21, []⟩, declarator]⟩]⟩]⟩

def tree : Node := ⟨"program", true, "", 0, 44, [function]⟩

end CallCoverage.Sample

open CallCoverage.Sample

theorem Outline.ofTree_records_calls_in_view_default :
    (callPlaces source tree).count [0, 2, 0, 1, 1] = 1 ∧
      (callPlaces source tree).count [0, 2, 0, 1, 0, 0, 1] = 0 := by
  have calls := (Outline.ofTree_records_calls_in_view "a.js" source tree).2 [0] (by decide +kernel)
    function rfl
  exact ⟨calls [2, 0, 1, 1] valueCall (by simp) rfl (by decide +kernel),
    calls [2, 0, 1, 0, 0, 1] defaultCall (by simp) rfl (by decide +kernel)⟩

/-- The default value of a pattern calls `g` in the body of a function, but only the call of `h` is
    recorded. -/
theorem Outline.ofTree_loses_call_in_pattern :
    functionPlaces source tree = [[0]] ∧
      tree.at? [0, 2, 0, 1, 0, 0, 1] = some defaultCall ∧ defaultCall.callsName = true ∧
      (Outline.ofTree "a.js" source tree).sites = [⟨0, "h", none, 1⟩] :=
  ⟨by decide +kernel, rfl, by decide +kernel, by decide +kernel⟩

end LoadBearing
