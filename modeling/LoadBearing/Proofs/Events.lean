import Mathlib.Data.List.Nodup
import LoadBearing.Proofs.Plan

/-! # What a walk comes to

`events` lists the definitions, calls and decisions that a walk comes to, each with the place of its
node and with the place of the function around it.  No counter runs through the list, so what the
walk finds in one part of a tree does not depend on the rest.

`Lexical` is the invariant: a call or a decision belongs to the innermost function defined around it,
or to the function around the whole walk if there is none.  It holds of a list of events because the
parts of a plan are apart, so a function defined in one of them is not around what lies in another.
-/

namespace LoadBearing

/-- What surrounds a node in a walk. -/
structure Surroundings where
  /-- the kind of the node that holds it -/
  parent : String
  /-- the place of the innermost function around it -/
  owner : Option (List Nat)
  /-- the names of the classes around it, the innermost first -/
  classes : List String

/-- Something that a walk comes to. -/
inductive Event where
  /-- a function, with its definition as recorded -/
  | define (place : List Nat) (definition : Definition)
  /-- a call by the function at `owner` -/
  | call (place : List Nat) (owner : Option (List Nat)) (name : String) (receiver : Option String)
      (line : Nat)
  /-- a decision in the function at `owner` -/
  | branch (place : List Nat) (owner : Option (List Nat))
  deriving DecidableEq

def events (source : SourceText) (around : Surroundings) (place : List Nat) (n : Node) :
    List Event :=
  (plan source around.parent around.owner.isSome n).flatMap fun step =>
    match step with
    | .visit part =>
      events source { around with parent := part.parent } (place ++ part.place) part.node
    | .define callable d isMember =>
      let here := place ++ callable.place
      let d := if isMember then { d with owner := around.classes.head? } else d
      .define here d :: (Plan.body callable.node).flatMap fun part =>
        events source { around with parent := part.parent, owner := some here }
          (here ++ part.place) part.node
    | .enter name body =>
      body.flatMap fun part =>
        events source { around with parent := part.parent, classes := name :: around.classes }
          (place ++ part.place) part.node
    | .call name receiver line => [.call place around.owner name receiver line]
    | .branch => [.branch place around.owner]
    | .bind _ _ | .exportDefault _ => []
termination_by n.size
decreasing_by
  · exact part.size_lt
  · exact Nat.lt_of_lt_of_le part.size_lt callable.size_le
  · exact part.size_lt

def eventsOfTree (source : SourceText) (root : Node) : List Event :=
  root.namedParts.flatMap fun part => events source ⟨part.parent, none, []⟩ part.place part.node

/-! ## Kinds of events -/

namespace Event

def place : Event → List Nat
  | .define place _ => place
  | .call place _ _ _ _ => place
  | .branch place _ => place

def owner? : Event → Option (Option (List Nat))
  | .define _ _ => none
  | .call _ owner _ _ _ => some owner
  | .branch _ owner => some owner

def isDefine : Event → Bool
  | .define _ _ => true
  | _ => false

def isCall : Event → Bool
  | .call _ _ _ _ _ => true
  | _ => false

def isBranch : Event → Bool
  | .branch _ _ => true
  | _ => false

end Event

def callables (es : List Event) : List (List Nat) :=
  (es.filter Event.isDefine).map Event.place

@[simp] theorem callables_append (es fs : List Event) :
    callables (es ++ fs) = callables es ++ callables fs := by
  simp [callables]

theorem mem_callables {es : List Event} {place : List Nat} :
    place ∈ callables es ↔ ∃ d, Event.define place d ∈ es := by
  rw [callables, List.mem_map]
  constructor
  · rintro ⟨e, member, rfl⟩
    obtain ⟨inEvents, isDefine⟩ := List.mem_filter.1 member
    cases e with
    | define place d => exact ⟨d, inEvents⟩
    | call => cases isDefine
    | branch => cases isDefine
  · rintro ⟨d, member⟩
    exact ⟨_, List.mem_filter.2 ⟨member, rfl⟩, rfl⟩

/-! ## Lexical attribution -/

/-- The function at `holder` is the innermost one around a place. -/
def Holds (functions : List (List Nat)) (place holder : List Nat) : Prop :=
  holder ∈ functions ∧ holder <+: place ∧ ∀ other ∈ functions, other <+: place → other <+: holder

/-- What is at a place belongs to the innermost function around it, and to `outer` if there is
    none. -/
def Belongs (functions : List (List Nat)) (outer : Option (List Nat)) (place : List Nat)
    (owner : Option (List Nat)) : Prop :=
  (∃ holder, owner = some holder ∧ Holds functions place holder) ∨
    (owner = outer ∧ ∀ other ∈ functions, ¬ other <+: place)

/-- Events inside some regions, no two of a kind at one place, each with the right function. -/
structure Lexical (outer : Option (List Nat)) (regions : List (List Nat)) (es : List Event) :
    Prop where
  inside : ∀ e ∈ es, ∃ region ∈ regions, region <+: e.place
  nodup : ∀ kind ∈ [Event.isDefine, Event.isCall, Event.isBranch],
    ((es.filter kind).map Event.place).Nodup
  belongs : ∀ e ∈ es, ∀ owner, e.owner? = some owner → Belongs (callables es) outer e.place owner

namespace Lexical

variable {outer : Option (List Nat)} {regions others : List (List Nat)} {es fs : List Event}

theorem nil (outer : Option (List Nat)) (regions : List (List Nat)) : Lexical outer regions [] :=
  ⟨fun _ member => (nomatch member), fun _ _ => List.nodup_nil, fun _ member => (nomatch member)⟩

theorem mono (lexical : Lexical outer regions es)
    (wider : ∀ region ∈ regions, ∃ other ∈ others, other <+: region) : Lexical outer others es := by
  refine ⟨fun e member => ?_, lexical.nodup, lexical.belongs⟩
  obtain ⟨region, isRegion, below⟩ := lexical.inside e member
  obtain ⟨other, isOther, above⟩ := wider region isRegion
  exact ⟨other, isOther, above.trans below⟩

/-- Functions elsewhere change nothing about who holds a place. -/
theorem belongs_append_left {functions elsewhere : List (List Nat)} {place : List Nat}
    {owner : Option (List Nat)} (belongs : Belongs functions outer place owner)
    (apart : ∀ other ∈ elsewhere, ¬ other <+: place) :
    Belongs (functions ++ elsewhere) outer place owner := by
  rcases belongs with ⟨holder, same, member, around, innermost⟩ | ⟨same, none⟩
  · refine .inl ⟨holder, same, List.mem_append_left _ member, around, ?_⟩
    intro other inAll isAround
    rcases List.mem_append.1 inAll with here | there
    · exact innermost other here isAround
    · exact absurd isAround (apart other there)
  · refine .inr ⟨same, fun other inAll => ?_⟩
    rcases List.mem_append.1 inAll with here | there
    · exact none other here
    · exact apart other there

theorem belongs_append_comm {functions elsewhere : List (List Nat)} {place : List Nat}
    {owner : Option (List Nat)} (belongs : Belongs (functions ++ elsewhere) outer place owner) :
    Belongs (elsewhere ++ functions) outer place owner := by
  simpa only [Belongs, Holds, List.mem_append, or_comm] using belongs

theorem append (left : Lexical outer regions es) (right : Lexical outer others fs)
    (apart : ∀ region ∈ regions, ∀ other ∈ others, Apart region other) :
    Lexical outer (regions ++ others) (es ++ fs) := by
  have apartEvents : ∀ e ∈ es, ∀ f ∈ fs, Apart e.place f.place := by
    intro e inLeft f inRight
    obtain ⟨region, isRegion, below⟩ := left.inside e inLeft
    obtain ⟨other, isOther, belowOther⟩ := right.inside f inRight
    exact (apart region isRegion other isOther).mono below belowOther
  refine ⟨fun e member => ?_, fun kind isKind => ?_, fun e member owner owned => ?_⟩
  · rcases List.mem_append.1 member with here | there
    · obtain ⟨region, isRegion, below⟩ := left.inside e here
      exact ⟨region, List.mem_append_left _ isRegion, below⟩
    · obtain ⟨region, isRegion, below⟩ := right.inside e there
      exact ⟨region, List.mem_append_right _ isRegion, below⟩
  · rw [List.filter_append, List.map_append, List.nodup_append']
    refine ⟨left.nodup kind isKind, right.nodup kind isKind, fun place inLeft inRight => ?_⟩
    obtain ⟨e, eMember, rfl⟩ := List.mem_map.1 inLeft
    obtain ⟨f, fMember, same⟩ := List.mem_map.1 inRight
    exact (apartEvents e (List.mem_of_mem_filter eMember) f (List.mem_of_mem_filter fMember)).1
      (same ▸ List.prefix_refl _)
  · -- A function on one side is not around what lies on the other.
    rw [callables_append]
    rcases List.mem_append.1 member with here | there
    · refine belongs_append_left (left.belongs e here owner owned) fun other elsewhere => ?_
      obtain ⟨d, defined⟩ := mem_callables.1 elsewhere
      exact (apartEvents e here _ defined).2
    · refine belongs_append_comm (belongs_append_left (right.belongs e there owner owned) ?_)
      intro other elsewhere
      obtain ⟨d, defined⟩ := mem_callables.1 elsewhere
      exact (apartEvents _ defined e there).1

theorem flatMap {α : Type} {items : List α} {regionsOf : α → List (List Nat)}
    {eventsOf : α → List Event}
    (each : ∀ item ∈ items, Lexical outer (regionsOf item) (eventsOf item))
    (apart : (items.flatMap regionsOf).Pairwise Apart) :
    Lexical outer (items.flatMap regionsOf) (items.flatMap eventsOf) := by
  induction items with
  | nil => exact nil outer []
  | cons item rest ih =>
    rw [List.flatMap_cons] at apart
    obtain ⟨-, apartRest, across⟩ := List.pairwise_append.1 apart
    exact (each item List.mem_cons_self).append
      (ih (fun other member => each other (List.mem_cons_of_mem _ member)) apartRest) across

def StrictlyInside (place : List Nat) (regions : List (List Nat)) : Prop :=
  ∀ region ∈ regions, place <+: region ∧ ¬ region <+: place

theorem strictlyInside_parts {n : Node} (place : List Nat) (parts : List (Part n)) :
    StrictlyInside place (parts.map fun part => place ++ part.place) := by
  intro region member
  obtain ⟨part, -, rfl⟩ := List.mem_map.1 member
  refine ⟨List.prefix_append _ _, fun inside => ?_⟩
  have shorter := inside.length_le
  have positive := List.length_pos_of_ne_nil part.proper
  rw [List.length_append] at shorter
  omega

theorem strictly (lexical : Lexical outer regions es) {place : List Nat}
    (strict : StrictlyInside place regions) {e : Event} (member : e ∈ es) :
    place <+: e.place ∧ ¬ e.place <+: place := by
  obtain ⟨region, isRegion, below⟩ := lexical.inside e member
  obtain ⟨above, proper⟩ := strict region isRegion
  exact ⟨above.trans below, fun inside => proper (below.trans inside)⟩

theorem nodup_cons (lexical : Lexical outer regions es) {e : Event}
    (strict : StrictlyInside e.place regions) :
    ∀ kind ∈ [Event.isDefine, Event.isCall, Event.isBranch],
      (((e :: es).filter kind).map Event.place).Nodup := by
  intro kind isKind
  have rest := lexical.nodup kind isKind
  cases isOf : kind e with
  | false =>
    rw [List.filter_cons_of_neg (by simp [isOf])]
    exact rest
  | true =>
    rw [List.filter_cons_of_pos isOf, List.map_cons]
    refine List.nodup_cons.2 ⟨fun member => ?_, rest⟩
    obtain ⟨f, inRest, same⟩ := List.mem_map.1 member
    exact (lexical.strictly strict (List.mem_of_mem_filter inRest)).2 (same ▸ List.prefix_refl _)

theorem inside_cons (lexical : Lexical outer regions es) {e : Event}
    (strict : StrictlyInside e.place regions) :
    ∀ f ∈ e :: es, ∃ region ∈ [e.place], region <+: f.place := by
  intro f member
  refine ⟨e.place, List.mem_singleton_self _, ?_⟩
  rcases List.mem_cons.1 member with rfl | later
  · exact List.prefix_refl _
  · exact (lexical.strictly strict later).1

theorem cons_owned (lexical : Lexical outer regions es) {e : Event} (owned : e.owner? = some outer)
    (strict : StrictlyInside e.place regions) : Lexical outer [e.place] (e :: es) := by
  have functions : callables (e :: es) = callables es := by
    cases e with
    | define => cases owned
    | call => rfl
    | branch => rfl
  refine ⟨lexical.inside_cons strict, lexical.nodup_cons strict, fun f member owner ownedBy => ?_⟩
  rw [functions]
  rcases List.mem_cons.1 member with rfl | later
  · -- All functions defined further down are too deep to be around the node itself.
    rw [owned, Option.some.injEq] at ownedBy
    refine .inr ⟨ownedBy.symm, fun other isFunction inside => ?_⟩
    obtain ⟨d, defined⟩ := mem_callables.1 isFunction
    exact (lexical.strictly strict defined).2 inside
  · exact lexical.belongs f later owner ownedBy

theorem cons_define {place : List Nat} (lexical : Lexical (some place) regions es)
    (strict : StrictlyInside place regions) (outer : Option (List Nat)) (d : Definition) :
    Lexical outer [place] (.define place d :: es) := by
  have functions : callables (.define place d :: es) = place :: callables es := rfl
  refine ⟨lexical.inside_cons (e := .define place d) strict,
    lexical.nodup_cons (e := .define place d) strict, fun f member owner ownedBy => ?_⟩
  rw [functions]
  rcases List.mem_cons.1 member with rfl | later
  · cases ownedBy
  · have below := (lexical.strictly strict later).1
    rcases lexical.belongs f later owner ownedBy with
      ⟨holder, same, isFunction, around, innermost⟩ | ⟨same, none⟩
    · refine .inl ⟨holder, same, List.mem_cons_of_mem _ isFunction, around, ?_⟩
      intro other inAll isAround
      rcases List.mem_cons.1 inAll with rfl | deeper
      · obtain ⟨d, defined⟩ := mem_callables.1 isFunction
        exact (lexical.strictly strict defined).1
      · exact innermost other deeper isAround
    · -- What no inner function holds belongs to the new one.
      refine .inl ⟨place, same, List.mem_cons_self, below, ?_⟩
      intro other inAll isAround
      rcases List.mem_cons.1 inAll with rfl | deeper
      · exact List.prefix_refl _
      · exact absurd isAround (none other deeper)

end Lexical

/-! ## Walks are lexical -/

def stepEvents (source : SourceText) (around : Surroundings) (place : List Nat) {n : Node} :
    Step n → List Event
  | .visit part =>
    events source { around with parent := part.parent } (place ++ part.place) part.node
  | .define callable d isMember =>
    .define (place ++ callable.place)
        (if isMember then { d with owner := around.classes.head? } else d) ::
      (Plan.body callable.node).flatMap fun part =>
        events source { around with parent := part.parent, owner := some (place ++ callable.place) }
          (place ++ callable.place ++ part.place) part.node
  | .enter name body =>
    body.flatMap fun part =>
      events source { around with parent := part.parent, classes := name :: around.classes }
        (place ++ part.place) part.node
  | .call name receiver line => [.call place around.owner name receiver line]
  | .branch => [.branch place around.owner]
  | .bind _ _ | .exportDefault _ => []

theorem events_eq (source : SourceText) (around : Surroundings) (place : List Nat) (n : Node) :
    events source around place n
      = (plan source around.parent around.owner.isSome n).flatMap
          (stepEvents source around place) := by
  rw [events]
  refine List.flatMap_congr fun step _ => ?_
  cases step <;> rfl

section Lexical

variable {source : SourceText} {n : Node}

theorem apart_map_append {places : List (List Nat)} (apart : places.Pairwise Apart)
    (outer : List Nat) : (places.map (outer ++ ·)).Pairwise Apart := by
  rw [List.pairwise_map]
  exact apart.imp fun apart => apart_append_iff.2 apart

/-- The parts of a node, if walking each of them is lexical. -/
theorem lexical_parts (place : List Nat) {parts : List (Part n)}
    (apart : (parts.map (·.place)).Pairwise Apart) {owner : Option (List Nat)}
    {eventsOf : Part n → List Event}
    (each : ∀ part ∈ parts, Lexical owner [place ++ part.place] (eventsOf part)) :
    Lexical owner (parts.map fun part => place ++ part.place) (parts.flatMap eventsOf) := by
  have placed := apart_map_append apart place
  rw [List.map_map] at placed
  rw [List.map_eq_flatMap]
  refine Lexical.flatMap each ?_
  rw [← List.map_eq_flatMap]
  exact placed

/-- A plain step is lexical in its regions if walking smaller nodes is. -/
theorem lexical_stepEvents {step : Step n} (plain : step.Plain source)
    (apart : step.regions.Pairwise Apart)
    (smaller : ∀ (m : Node), m.size < n.size → ∀ around place,
      Lexical around.owner [place] (events source around place m))
    (around : Surroundings) (place : List Nat) :
    Lexical around.owner (step.regions.map (place ++ ·)) (stepEvents source around place step) := by
  cases step with
  | visit part =>
    exact smaller part.node part.size_lt { around with parent := part.parent } (place ++ part.place)
  | define callable d isMember =>
    have body := lexical_parts (place ++ callable.place) (Plan.apart_body callable.node)
      fun part _ => smaller part.node (Nat.lt_of_lt_of_le part.size_lt callable.size_le)
        { around with parent := part.parent, owner := some (place ++ callable.place) }
        (place ++ callable.place ++ part.place)
    exact body.cons_define (Lexical.strictlyInside_parts _ _) around.owner _
  | enter name body =>
    have parts := lexical_parts place apart fun part _ => smaller part.node part.size_lt
      { around with parent := part.parent, classes := name :: around.classes } (place ++ part.place)
    rw [Step.regions, List.map_map]
    exact parts
  | call name receiver line => cases plain
  | branch => cases plain
  | bind name binding => exact Lexical.nil _ _
  | exportDefault name => exact Lexical.nil _ _

/-- A series of plain steps into places that are apart. -/
theorem lexical_tame {steps : List (Step n)} (tame : Tame source steps)
    (smaller : ∀ (m : Node), m.size < n.size → ∀ around place,
      Lexical around.owner [place] (events source around place m))
    (around : Surroundings) (place : List Nat) :
    Lexical around.owner ((steps.flatMap Step.regions).map (place ++ ·))
      (steps.flatMap (stepEvents source around place)) := by
  rw [List.map_flatMap]
  refine Lexical.flatMap (fun step member => ?_) ?_
  · have apart := tame.2.sublist (List.sublist_flatten_of_mem (List.mem_map_of_mem member))
    exact lexical_stepEvents (tame.1 step member) apart smaller around place
  · rw [← List.map_flatMap]
    exact apart_map_append tame.2 place

theorem lexical_events (source : SourceText) (n : Node) (around : Surroundings) (place : List Nat) :
    Lexical around.owner [place] (events source around place n) := by
  induction size : n.size using Nat.strongRecOn generalizing n around place with
  | ind bound ih =>
    have smaller : ∀ (m : Node), m.size < n.size → ∀ around place,
        Lexical around.owner [place] (events source around place m) :=
      fun m less around place => ih m.size (size ▸ less) m around place rfl
    -- A call or a decision stands before a look at all children.
    have children := lexical_tame (Plan.tame_lookThrough source n) smaller around place
    have strict : Lexical.StrictlyInside place
        (((Plan.lookThrough n).flatMap Step.regions).map (place ++ ·)) := by
      rw [Plan.regions_lookThrough, List.map_map]
      exact Lexical.strictlyInside_parts place n.namedParts
    rw [events_eq]
    have shape := plan_shape source around.parent around.owner.isSome n
    generalize plan source around.parent around.owner.isSome n = steps at shape
    cases shape with
    | tame tame =>
      refine (lexical_tame tame smaller around place).mono fun region member => ?_
      obtain ⟨inner, -, rfl⟩ := List.mem_map.1 member
      exact ⟨place, List.mem_singleton_self _, List.prefix_append _ _⟩
    | call isCall found =>
      rw [List.flatMap_cons]
      exact children.cons_owned (e := .call place around.owner _ _ _) rfl strict
    | branch decides =>
      rw [List.flatMap_cons]
      exact children.cons_owned (e := .branch place around.owner) rfl strict

theorem lexical_eventsOfTree (source : SourceText) (root : Node) :
    Lexical none [[]] (eventsOfTree source root) := by
  have parts := lexical_parts [] root.apart_namedParts fun part _ =>
    lexical_events source part.node ⟨part.parent, none, []⟩ ([] ++ part.place)
  refine parts.mono fun region member => ⟨[], List.mem_singleton_self _, List.nil_prefix⟩

end Lexical

end LoadBearing
