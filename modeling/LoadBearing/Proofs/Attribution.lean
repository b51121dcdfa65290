import Mathlib.Data.Finset.Card
import LoadBearing.Proofs.Events

/-! # Calls and decisions belong to the innermost function

The outline of a tree records what the walk comes to, in order: one definition for each function, one
site for each call inside a function, and at most one unit of complexity for each decision.  The
walk knows the function around it by its position in the outline, the events by its place; `Agrees`
ties the two together and is kept by every step.
-/

namespace LoadBearing

/-! ## Events are about nodes of the tree -/

/-- An event says of the node at its place what the node itself says. -/
def Genuine (source : SourceText) (root : Node) : Event → Prop
  | .define place d => ∃ n, root.at? place = some n ∧ d.complexity = 1 ∧
      d.params = Plan.paramCount n ∧ d.endLine = max (source.lineAt n.stop) d.line
  | .call place _ name receiver line => ∃ n, root.at? place = some n ∧ n.construct = .call ∧
      (n.part? "function").bind (Plan.callee? source) = some (name, receiver) ∧
      line = source.lineAt n.start
  | .branch place _ => ∃ n, root.at? place = some n ∧ isDecision source n = true

section Genuine

variable {source : SourceText} {root n : Node} {place : List Nat}

theorem at?_part (found : root.at? place = some n) (spot : Spot n) :
    root.at? (place ++ spot.place) = some spot.node := by
  rw [Node.at?_append, found, Option.bind_some, spot.found]

theorem genuine_stepEvents {step : Step n} (plain : step.Plain source)
    (smaller : ∀ (m : Node), m.size < n.size → ∀ around place, root.at? place = some m →
      ∀ e ∈ events source around place m, Genuine source root e)
    (around : Surroundings) (found : root.at? place = some n) :
    ∀ e ∈ stepEvents source around place step, Genuine source root e := by
  intro e member
  cases step with
  | visit part => exact smaller _ part.size_lt _ _ (at?_part found part.toSpot) e member
  | define callable d isMember =>
    have here := at?_part found callable
    rcases List.mem_cons.1 member with rfl | member
    · obtain ⟨complexity, params, endLine⟩ := plain
      refine ⟨callable.node, here, ?_⟩
      split
      · exact ⟨complexity, params, endLine⟩
      · exact ⟨complexity, params, endLine⟩
    · obtain ⟨part, -, member⟩ := List.mem_flatMap.1 member
      exact smaller _ (Nat.lt_of_lt_of_le part.size_lt callable.size_le) _ _
        (at?_part here part.toSpot) e member
  | enter name body =>
    obtain ⟨part, -, member⟩ := List.mem_flatMap.1 member
    exact smaller _ part.size_lt _ _ (at?_part found part.toSpot) e member
  | call name receiver line => cases plain
  | branch => cases plain
  | bind name binding => cases member
  | exportDefault name => cases member

theorem genuine_events (source : SourceText) (root n : Node) (around : Surroundings)
    (place : List Nat) (found : root.at? place = some n) :
    ∀ e ∈ events source around place n, Genuine source root e := by
  induction size : n.size using Nat.strongRecOn generalizing n around place with
  | ind bound ih =>
    have smaller : ∀ (m : Node), m.size < n.size → ∀ around place, root.at? place = some m →
        ∀ e ∈ events source around place m, Genuine source root e :=
      fun m less around place found => ih m.size (size ▸ less) m around place found rfl
    -- The events of plain steps come from smaller nodes; a call or a decision is the node's own.
    have tame : ∀ steps : List (Step n), Tame source steps →
        ∀ e ∈ steps.flatMap (stepEvents source around place), Genuine source root e := by
      intro steps tame e member
      obtain ⟨step, inSteps, member⟩ := List.mem_flatMap.1 member
      exact genuine_stepEvents (tame.1 step inSteps) smaller around found e member
    have children := tame _ (Plan.tame_lookThrough source n)
    rw [events_eq]
    have shape := plan_shape source around.parent around.owner.isSome n
    generalize plan source around.parent around.owner.isSome n = steps at shape
    cases shape with
    | tame isTame => exact tame steps isTame
    | call isCall callee =>
      rw [List.flatMap_cons, List.forall_mem_append]
      refine ⟨fun e member => ?_, children⟩
      rw [List.mem_singleton.1 member]
      exact ⟨n, found, isCall, callee, rfl⟩
    | branch decides =>
      rw [List.flatMap_cons, List.forall_mem_append]
      refine ⟨fun e member => ?_, children⟩
      rw [List.mem_singleton.1 member]
      exact ⟨n, found, decides⟩

theorem genuine_eventsOfTree (source : SourceText) (root : Node) :
    ∀ e ∈ eventsOfTree source root, Genuine source root e := by
  intro e member
  obtain ⟨part, -, member⟩ := List.mem_flatMap.1 member
  exact genuine_events source root part.node _ part.place part.found e member

end Genuine

/-! ## The outline records the events -/

namespace Event

def isOwnedCall : Event → Bool
  | .call _ (some _) _ _ _ => true
  | _ => false

def isBranchOf (function : List Nat) : Event → Bool
  | .branch _ owner => owner = some function
  | _ => false

end Event

/-- The definition of an event, with the decisions counted so far. -/
def RecordsDefinition (es : List Event) (d : Definition) : Event → Prop
  | .define place plain => d = { plain with complexity := d.complexity } ∧
      d.complexity ≤ plain.complexity + es.countP (Event.isBranchOf place)
  | _ => False

/-- The site of an event, whose caller stands at the position of its function. -/
def RecordsSite (es : List Event) (site : Site) : Event → Prop
  | .call _ (some function) name receiver line =>
    (callables es)[site.caller]? = some function ∧ site.name = name ∧ site.receiver = receiver ∧
      site.line = line
  | _ => False

/-- An outline records some events. -/
structure Agrees (o : Outline) (es : List Event) : Prop where
  definitions : List.Forall₂ (RecordsDefinition es) o.definitions (es.filter Event.isDefine)
  sites : List.Forall₂ (RecordsSite es) o.sites (es.filter Event.isOwnedCall)

/-- Functions keep their positions when more is found. -/
theorem getElem?_callables_append {es : List Event} {index : Nat} {place : List Nat}
    (found : (callables es)[index]? = some place) (fs : List Event) :
    (callables (es ++ fs))[index]? = some place := by
  rw [callables_append, List.getElem?_append_left (List.getElem?_eq_some_iff.1 found).1]
  exact found

/-- What holds of all entries still holds when one of them changes. -/
theorem forall₂_modify {α β : Type} {R S : α → β → Prop} {f : α → α} {xs : List α} {ys : List β}
    (related : List.Forall₂ R xs ys) (index : Nat) (keeps : ∀ x y, R x y → S x y)
    (changes : ∀ x y, ys[index]? = some y → R x y → S (f x) y) :
    List.Forall₂ S (xs.modify index f) ys := by
  induction related generalizing index with
  | nil => rw [List.modify_nil]; exact .nil
  | cons first rest ih =>
    cases index with
    | zero =>
      rw [List.modify_zero_cons]
      exact .cons (changes _ _ rfl first) (rest.imp keeps)
    | succ index =>
      rw [List.modify_succ_cons]
      exact .cons (keeps _ _ first) (ih index changes)

namespace Agrees

variable {o : Outline} {es fs : List Event}

theorem length_definitions (agrees : Agrees o es) :
    o.definitions.length = (callables es).length := by
  rw [agrees.definitions.length_eq, callables, List.length_map]

theorem recordsDefinition_mono {d : Definition} {e : Event} (fs : List Event)
    (records : RecordsDefinition es d e) : RecordsDefinition (es ++ fs) d e := by
  cases e with
  | define place plain =>
    obtain ⟨same, bound⟩ := records
    refine ⟨same, ?_⟩
    rw [List.countP_append]
    omega
  | call => exact records
  | branch => exact records

theorem recordsSite_mono {site : Site} {e : Event} (fs : List Event)
    (records : RecordsSite es site e) : RecordsSite (es ++ fs) site e := by
  cases e with
  | define => exact records
  | branch => exact records
  | call place owner name receiver line =>
    cases owner with
    | none => exact records
    | some function =>
      obtain ⟨caller, same⟩ := records
      exact ⟨getElem?_callables_append caller fs, same⟩

theorem definitions_append (agrees : Agrees o es) (none : fs.filter Event.isDefine = []) :
    List.Forall₂ (RecordsDefinition (es ++ fs)) o.definitions
      ((es ++ fs).filter Event.isDefine) := by
  rw [List.filter_append, none, List.append_nil]
  exact agrees.definitions.imp fun _ _ => recordsDefinition_mono fs

theorem sites_append (agrees : Agrees o es) (none : fs.filter Event.isOwnedCall = []) :
    List.Forall₂ (RecordsSite (es ++ fs)) o.sites ((es ++ fs).filter Event.isOwnedCall) := by
  rw [List.filter_append, none, List.append_nil]
  exact agrees.sites.imp fun _ _ => recordsSite_mono fs

theorem define (agrees : Agrees o es) (d : Definition) (place : List Nat) :
    Agrees { o with definitions := o.definitions ++ [d] } (es ++ [.define place d]) := by
  refine ⟨?_, agrees.sites_append rfl⟩
  rw [List.filter_append]
  refine List.rel_append (agrees.definitions.imp fun _ _ => recordsDefinition_mono _) ?_
  exact .cons ⟨rfl, Nat.le_add_right _ _⟩ .nil

theorem call (agrees : Agrees o es) {caller : Nat} {function : List Nat}
    (isCaller : (callables es)[caller]? = some function) (place : List Nat) (name : String)
    (receiver : Option String) (line : Nat) :
    Agrees { o with sites := o.sites ++ [⟨caller, name, receiver, line⟩] }
      (es ++ [.call place (some function) name receiver line]) := by
  refine ⟨agrees.definitions_append rfl, ?_⟩
  rw [List.filter_append]
  refine List.rel_append (agrees.sites.imp fun _ _ => recordsSite_mono _) ?_
  exact .cons ⟨getElem?_callables_append isCaller _, rfl, rfl, rfl⟩ .nil

theorem branch (agrees : Agrees o es) {index : Nat} {function : List Nat}
    (isFunction : (callables es)[index]? = some function) (place : List Nat) :
    Agrees { o with definitions :=
        o.definitions.modify index fun d => { d with complexity := d.complexity + 1 } }
      (es ++ [.branch place (some function)]) := by
  refine ⟨?_, agrees.sites_append rfl⟩
  rw [List.filter_append]
  change List.Forall₂ _ _ (_ ++ [])
  rw [List.append_nil]
  refine forall₂_modify agrees.definitions index (fun _ _ => recordsDefinition_mono _) ?_
  intro d e atIndex records
  rw [callables, List.getElem?_map, atIndex, Option.map_some, Option.some.injEq] at isFunction
  cases e with
  | call => cases records
  | branch => cases records
  | define here plain =>
    -- The new decision is one more of this function's own.
    obtain ⟨same, bound⟩ := records
    have counted : [Event.branch place (some function)].countP (Event.isBranchOf here) = 1 := by
      simpa [Event.isBranchOf, Event.place] using isFunction.symm
    refine ⟨by rw [same], ?_⟩
    rw [List.countP_append, counted]
    change d.complexity + 1 ≤ _
    omega

end Agrees

/-! ## The walk follows the events -/

/-- A position in the outline and a place name the same function, or none at all. -/
inductive Points (es : List Event) : Option Nat → Option (List Nat) → Prop where
  | nowhere : Points es none none
  | function {index : Nat} {place : List Nat} : (callables es)[index]? = some place →
      Points es (some index) (some place)

theorem Points.append {es : List Event} {current : Option Nat} {owner : Option (List Nat)}
    (points : Points es current owner) (fs : List Event) : Points (es ++ fs) current owner := by
  cases points with
  | nowhere => exact .nowhere
  | function found => exact .function (getElem?_callables_append found fs)

theorem Points.isSome_eq {es : List Event} {current : Option Nat} {owner : Option (List Nat)}
    (points : Points es current owner) : current.isSome = owner.isSome := by
  cases points with
  | nowhere => rfl
  | function => rfl

/-- A walk in a function and in some classes has recorded some events. -/
structure Follows (current : Option Nat) (owner : Option (List Nat)) (classes : List String)
    (w : Walk) (es : List Event) : Prop where
  agrees : Agrees w.outline es
  classes : w.classes = classes
  points : Points es current owner

/-- What one step of a plan does to a walk. -/
def Walk.perform (source : SourceText) (current : Option Nat) {n : Node} (w : Walk) :
    Step n → Walk
  | .visit part => w.visit source part.parent current part.node
  | .define callable d isMember =>
    (Plan.body callable.node).foldl
      (fun later part =>
        later.visit source part.parent (some w.outline.definitions.length) part.node)
      (w.define d isMember)
  | .enter name body =>
    (body.foldl (fun later part => later.visit source part.parent current part.node)
      (w.enter name)).leave
  | .call name receiver line => w.call current name receiver line
  | .branch => w.branch current
  | .bind name binding => w.bind name binding
  | .exportDefault name => w.exportDefault name

theorem Walk.visit_eq (source : SourceText) (parent : String) (current : Option Nat) (n : Node)
    (w : Walk) :
    w.visit source parent current n
      = (plan source parent current.isSome n).foldl (Walk.perform source current) w := by
  rw [Walk.visit]
  rfl

namespace Follows

variable {source : SourceText} {current : Option Nat} {owner : Option (List Nat)}
  {classes : List String} {w : Walk} {es : List Event}

/-- A run follows what its steps come to, if each step does. -/
theorem foldl {α : Type} (follows : Follows current owner classes w es) (items : List α)
    {run : Walk → α → Walk} {eventsOf : α → List Event}
    (each : ∀ item ∈ items, ∀ w es, Follows current owner classes w es →
      Follows current owner classes (run w item) (es ++ eventsOf item)) :
    Follows current owner classes (items.foldl run w) (es ++ items.flatMap eventsOf) := by
  induction items generalizing w es with
  | nil =>
    rw [List.flatMap_nil, List.append_nil]
    exact follows
  | cons item rest ih =>
    rw [List.foldl_cons, List.flatMap_cons, ← List.append_assoc]
    exact ih (each item List.mem_cons_self w es follows)
      fun other member => each other (List.mem_cons_of_mem _ member)

theorem define (follows : Follows current owner classes w es) (d : Definition) (isMember : Bool)
    (place : List Nat) :
    Follows (some w.outline.definitions.length) (some place) classes (w.define d isMember)
      (es ++ [.define place (if isMember then { d with owner := classes.head? } else d)]) := by
  refine ⟨?_, follows.classes, .function ?_⟩
  · rw [← follows.classes]
    exact follows.agrees.define _ place
  · -- The new function stands right after those defined before.
    rw [follows.agrees.length_definitions, callables_append]
    exact List.getElem?_concat_length

theorem call (follows : Follows current owner classes w es) (place : List Nat) (name : String)
    (receiver : Option String) (line : Nat) :
    Follows current owner classes (w.call current name receiver line)
      (es ++ [.call place owner name receiver line]) := by
  have points := follows.points.append [.call place owner name receiver line]
  cases follows.points with
  | nowhere =>
    exact ⟨⟨follows.agrees.definitions_append rfl, follows.agrees.sites_append rfl⟩,
      follows.classes, points⟩
  | function found =>
    exact ⟨follows.agrees.call found place name receiver line, follows.classes, points⟩

theorem branch (follows : Follows current owner classes w es) (place : List Nat) :
    Follows current owner classes (w.branch current) (es ++ [.branch place owner]) := by
  have points := follows.points.append [.branch place owner]
  cases follows.points with
  | nowhere =>
    exact ⟨⟨follows.agrees.definitions_append rfl, follows.agrees.sites_append rfl⟩,
      follows.classes, points⟩
  | function found => exact ⟨follows.agrees.branch found place, follows.classes, points⟩

/-- A step of a plan follows what it comes to, if walking smaller nodes does. -/
theorem perform {n : Node}
    (smaller : ∀ (m : Node), m.size < n.size → ∀ current around place w es,
      Follows current around.owner around.classes w es →
      Follows current around.owner around.classes (w.visit source around.parent current m)
        (es ++ events source around place m))
    (around : Surroundings) (place : List Nat) (step : Step n)
    (follows : Follows current around.owner around.classes w es) :
    Follows current around.owner around.classes (w.perform source current step)
      (es ++ stepEvents source around place step) := by
  cases step with
  | visit part =>
    exact smaller part.node part.size_lt current { around with parent := part.parent } _ w es
      follows
  | define callable d isMember =>
    let here := place ++ callable.place
    have body := (follows.define d isMember here).foldl (Plan.body callable.node)
      fun part _ later fs =>
        smaller part.node (Nat.lt_of_lt_of_le part.size_lt callable.size_le) _
          { around with parent := part.parent, owner := some here } (here ++ part.place) later fs
    rw [List.append_assoc] at body
    -- The function around the node is the same again after the body.
    exact ⟨body.agrees, body.classes, follows.points.append _⟩
  | enter name body =>
    have entered : Follows current around.owner (name :: around.classes) (w.enter name) es :=
      ⟨follows.agrees, by rw [Walk.enter, follows.classes], follows.points⟩
    have inner := entered.foldl body fun part _ later fs =>
      smaller part.node part.size_lt current
        { around with parent := part.parent, classes := name :: around.classes }
        (place ++ part.place) later fs
    -- Leaving drops the class that was entered: the parts left the ones below it alone.
    exact ⟨inner.agrees, congrArg List.tail inner.classes, inner.points⟩
  | call name receiver line => exact follows.call place name receiver line
  | branch => exact follows.branch place
  | bind name binding =>
    rw [stepEvents, List.append_nil]
    exact ⟨⟨follows.agrees.definitions, follows.agrees.sites⟩, follows.classes, follows.points⟩
  | exportDefault name =>
    rw [stepEvents, List.append_nil]
    exact ⟨⟨follows.agrees.definitions, follows.agrees.sites⟩, follows.classes, follows.points⟩

theorem visit (source : SourceText) (n : Node) (current : Option Nat) (around : Surroundings)
    (place : List Nat) (w : Walk) (es : List Event)
    (follows : Follows current around.owner around.classes w es) :
    Follows current around.owner around.classes (w.visit source around.parent current n)
      (es ++ events source around place n) := by
  induction size : n.size using Nat.strongRecOn generalizing n current around place w es with
  | ind bound ih =>
    rw [Walk.visit_eq, events_eq, follows.points.isSome_eq]
    refine follows.foldl _ fun step _ later fs follows => ?_
    refine follows.perform (fun m less current around place w es follows => ?_) around place step
    exact ih m.size (size ▸ less) m current around place w es follows rfl

end Follows

theorem agrees_ofTree (file : String) (source : SourceText) (root : Node) :
    Agrees (Outline.ofTree file source root) (eventsOfTree source root) := by
  have start : Follows none none [] { outline := { file := file } } [] :=
    ⟨⟨.nil, .nil⟩, rfl, .nowhere⟩
  have run := start.foldl root.namedParts fun part _ later fs =>
    Follows.visit source part.node none ⟨part.parent, none, []⟩ part.place later fs
  exact run.agrees

/-! ## Counting decisions -/

namespace Node

def places (n : Node) : List (List Nat) :=
  [] :: n.parts.flatMap fun part => part.node.places.map (part.place ++ ·)
termination_by n.size
decreasing_by exact part.size_lt

theorem exists_mem_parts {n child : Node} {position : Nat}
    (found : n.children[position]? = some child) :
    ∃ part ∈ n.parts, part.place = [position] ∧ part.node = child := by
  have inRange : [position] ∈ n.parts.map (·.place) := by
    rw [map_place_parts]
    exact List.mem_map_of_mem (List.mem_range.2 (List.getElem?_eq_some_iff.1 found).1)
  obtain ⟨part, member, placed⟩ := List.mem_map.1 inRange
  have same := part.found
  rw [placed, at?, found] at same
  exact ⟨part, member, placed, (Option.some.inj same).symm⟩

theorem mem_places {n m : Node} {place : List Nat} (found : n.at? place = some m) :
    place ∈ n.places := by
  induction place generalizing n with
  | nil =>
    rw [places]
    exact List.mem_cons_self
  | cons position rest ih =>
    obtain ⟨child, isChild, below⟩ := Option.bind_eq_some_iff.1 found
    obtain ⟨part, member, placed, rfl⟩ := exists_mem_parts isChild
    rw [places]
    refine List.mem_cons_of_mem _ (List.mem_flatMap.2 ⟨part, member, ?_⟩)
    exact List.mem_map.2 ⟨rest, ih below, by rw [placed]; rfl⟩

end Node

def ownDecisions (source : SourceText) (root : Node) (functions : List (List Nat))
    (function : List Nat) : Finset (List Nat) :=
  root.places.toFinset.filter fun place =>
    (root.at? place).any (isDecision source) ∧ function <+: place ∧
      ∀ inner ∈ functions, function <+: inner → inner <+: place → inner = function

/-- No decision is one of two functions' own. -/
theorem disjoint_ownDecisions (source : SourceText) (root : Node) {functions : List (List Nat)}
    {one other : List Nat} (isOne : one ∈ functions) (isOther : other ∈ functions)
    (different : one ≠ other) :
    Disjoint (ownDecisions source root functions one)
      (ownDecisions source root functions other) := by
  rw [Finset.disjoint_left]
  intro place ofOne ofOther
  obtain ⟨-, -, inOne, ownOne⟩ := Finset.mem_filter.1 ofOne
  obtain ⟨-, -, inOther, ownOther⟩ := Finset.mem_filter.1 ofOther
  -- Both are around one place, so one of them lies in the other.
  rcases List.prefix_or_prefix_of_prefix inOne inOther with inside | inside
  · exact different (ownOne other isOther inside inOther).symm
  · exact different (ownOther one isOne inside inOne)

/-! ## Outlines are lexical -/

def functionPlaces (source : SourceText) (root : Node) : List (List Nat) :=
  callables (eventsOfTree source root)

def callPlaces (source : SourceText) (root : Node) : List (List Nat) :=
  ((eventsOfTree source root).filter Event.isOwnedCall).map Event.place

/-- A definition describes the function at a place, and counts no decisions but its own. -/
structure DescribesFunction (source : SourceText) (root : Node) (d : Definition)
    (place : List Nat) : Prop where
  node : ∃ n, root.at? place = some n ∧ d.params = Plan.paramCount n ∧
    d.endLine = max (source.lineAt n.stop) d.line
  complexity : d.complexity - 1 ≤
    (ownDecisions source root (functionPlaces source root) place).card

/-- A site describes the call at a place, made by the innermost function around it. -/
structure DescribesCall (source : SourceText) (root : Node) (site : Site) (place : List Nat) :
    Prop where
  node : ∃ n, root.at? place = some n ∧ n.kind = "call_expression" ∧
    (n.part? "function").bind (Plan.callee? source) = some (site.name, site.receiver) ∧
    site.line = source.lineAt n.start
  caller : ∃ holder, (functionPlaces source root)[site.caller]? = some holder ∧
    Holds (functionPlaces source root) place holder

theorem Construct.eq_of_ofKind_eq_call {kind : String} (isCall : Construct.ofKind kind = .call) :
    kind = "call_expression" := by
  unfold Construct.ofKind at isCall
  split at isCall <;> cases isCall
  rfl

section Tree

variable {source : SourceText} {root : Node}

theorem holds_of_owner {e : Event} (member : e ∈ eventsOfTree source root) {function : List Nat}
    (owned : e.owner? = some (some function)) :
    Holds (functionPlaces source root) e.place function := by
  rcases (lexical_eventsOfTree source root).belongs e member _ owned with
    ⟨holder, same, holds⟩ | ⟨same, -⟩
  · exact Option.some.inj same ▸ holds
  · cases same

/-- No two events of a kind stand at one place, nor do those of a narrower kind. -/
theorem nodup_places (kind : Event → Bool) {narrower : Event → Bool}
    (isKind : kind ∈ [Event.isDefine, Event.isCall, Event.isBranch])
    (narrows : ∀ e, narrower e = true → kind e = true) :
    (((eventsOfTree source root).filter narrower).map Event.place).Nodup :=
  ((lexical_eventsOfTree source root).nodup kind isKind).sublist
    ((List.monotone_filter_right _ narrows).map _)

theorem nodup_callPlaces (source : SourceText) (root : Node) : (callPlaces source root).Nodup := by
  refine nodup_places Event.isCall (by simp) fun e owned => ?_
  cases e with
  | define => cases owned
  | call => rfl
  | branch => cases owned

theorem mem_ownDecisions {place function : List Nat}
    (charged : Event.branch place (some function) ∈ eventsOfTree source root) :
    place ∈ ownDecisions source root (functionPlaces source root) function := by
  obtain ⟨n, found, decides⟩ := genuine_eventsOfTree source root _ charged
  obtain ⟨-, inside, innermost⟩ := holds_of_owner charged rfl
  refine Finset.mem_filter.2 ⟨List.mem_toFinset.2 (Node.mem_places found), ?_, inside, ?_⟩
  · rw [found]
    exact decides
  · -- A function between the charged one and the decision would hold the decision itself.
    intro inner isFunction below above
    have deeper := innermost inner isFunction above
    exact deeper.eq_of_length_le below.length_le

theorem countP_isBranchOf_le (source : SourceText) (root : Node) (function : List Nat) :
    (eventsOfTree source root).countP (Event.isBranchOf function)
      ≤ (ownDecisions source root (functionPlaces source root) function).card := by
  let charged := ((eventsOfTree source root).filter (Event.isBranchOf function)).map Event.place
  have nodup : charged.Nodup := by
    refine nodup_places Event.isBranch (by simp) fun e ofFunction => ?_
    cases e with
    | define => cases ofFunction
    | call => cases ofFunction
    | branch => rfl
  have own : charged.toFinset ⊆ ownDecisions source root (functionPlaces source root) function := by
    intro place member
    obtain ⟨e, charges, rfl⟩ := List.mem_map.1 (List.mem_toFinset.1 member)
    obtain ⟨inEvents, ofFunction⟩ := List.mem_filter.1 charges
    cases e with
    | define => cases ofFunction
    | call => cases ofFunction
    | branch place owner =>
      obtain rfl : owner = some function := of_decide_eq_true ofFunction
      exact mem_ownDecisions inEvents
  calc (eventsOfTree source root).countP (Event.isBranchOf function)
      = charged.length := by rw [List.countP_eq_length_filter, List.length_map]
    _ = charged.toFinset.card := (List.toFinset_card_of_nodup nodup).symm
    _ ≤ _ := Finset.card_le_card own

theorem describesFunction_of_records {d : Definition} {e : Event}
    (member : e ∈ eventsOfTree source root)
    (records : RecordsDefinition (eventsOfTree source root) d e) :
    DescribesFunction source root d e.place := by
  cases e with
  | call => cases records
  | branch => cases records
  | define place plain =>
    obtain ⟨same, bound⟩ := records
    obtain ⟨n, found, one, params, endLine⟩ := genuine_eventsOfTree source root _ member
    have charged := countP_isBranchOf_le source root place
    refine ⟨⟨n, found, ?_, ?_⟩, ?_⟩
    · rw [same]
      exact params
    · rw [same]
      exact endLine
    · change _ ≤ (ownDecisions source root (functionPlaces source root) place).card
      omega

theorem describesCall_of_records {site : Site} {e : Event} (member : e ∈ eventsOfTree source root)
    (records : RecordsSite (eventsOfTree source root) site e) :
    DescribesCall source root site e.place := by
  cases e with
  | define => cases records
  | branch => cases records
  | call place owner name receiver line =>
    cases owner with
    | none => cases records
    | some function =>
      obtain ⟨caller, rfl, rfl, rfl⟩ := records
      obtain ⟨n, found, isCall, callee, line⟩ := genuine_eventsOfTree source root _ member
      exact ⟨⟨n, found, Construct.eq_of_ofKind_eq_call isCall, callee, line⟩,
        ⟨function, caller, holds_of_owner member rfl⟩⟩

/-- Rows that stand in step with events stand in step with the places of the events. -/
theorem forall₂_places {α : Type} {R : α → Event → Prop} {S : α → List Nat → Prop} {rows : List α}
    {es : List Event} (related : List.Forall₂ R rows es)
    (describes : ∀ row, ∀ e ∈ es, R row e → S row e.place) :
    List.Forall₂ S rows (es.map Event.place) := by
  induction related with
  | nil => exact .nil
  | cons first rest ih =>
    exact .cons (describes _ _ List.mem_cons_self first)
      (ih fun row e member => describes row e (List.mem_cons_of_mem _ member))

end Tree

/-- The definitions of an outline are those of different functions of the tree, and its sites those
    of different calls.  The caller of a site is the innermost function around the call, and the
    complexity of a function counts only decisions in it and outside the functions defined in it, so
    no decision counts for two functions. -/
theorem Outline.ofTree_attributes_lexically (file : String) (source : SourceText) (root : Node) :
    let outline := Outline.ofTree file source root
    let functions := functionPlaces source root
    let calls := callPlaces source root
    (functions.Nodup ∧ List.Forall₂ (DescribesFunction source root) outline.definitions functions) ∧
    (calls.Nodup ∧ List.Forall₂ (DescribesCall source root) outline.sites calls) ∧
    (∀ site ∈ outline.sites, site.caller < outline.definitions.length) ∧
    (functions.Pairwise fun one other => Disjoint (ownDecisions source root functions one)
      (ownDecisions source root functions other)) := by
  intro outline functions calls
  have agrees : Agrees outline (eventsOfTree source root) := agrees_ofTree file source root
  have distinct : functions.Nodup :=
    (lexical_eventsOfTree source root).nodup Event.isDefine List.mem_cons_self
  have sites : List.Forall₂ (DescribesCall source root) outline.sites calls :=
    forall₂_places agrees.sites fun site e member =>
      describesCall_of_records (List.mem_of_mem_filter member)
  have inRange : ∀ site place, DescribesCall source root site place →
      site.caller < outline.definitions.length := by
    intro site place describes
    obtain ⟨holder, atCaller, -⟩ := describes.caller
    rw [agrees.length_definitions]
    exact (List.getElem?_eq_some_iff.1 atCaller).1
  refine ⟨⟨distinct, ?_⟩, ⟨nodup_callPlaces source root, sites⟩, ?_, ?_⟩
  · exact forall₂_places agrees.definitions fun d e member =>
      describesFunction_of_records (List.mem_of_mem_filter member)
  · exact ((List.forall₂_and_left _ _).1
      (sites.imp fun site place describes => ⟨inRange site place describes, describes⟩)).1
  · exact distinct.imp_of_mem fun isOne isOther different =>
      disjoint_ownDecisions source root isOne isOther different

end LoadBearing
