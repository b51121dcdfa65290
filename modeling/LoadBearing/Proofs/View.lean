import LoadBearing.Proofs.Attribution

/-! # Where a walk looks

Of some constructs a walk looks at a few children only.  `View` says for each construct which ones,
and it is followed down a place without reference to what else is in the tree.

What is out of view: everything in a declarator but its value (so the default values of a pattern),
and all of a declarator that imports a module; the key of a pair; what stands around the body of a
class (so the class it extends); what a function that gets a name has besides parameters and body;
the target of an assignment that names a function, and the name of a field that does; methods and
declarators without a name; import statements; and all that is no construct of its own.

The main statement is `renders_plan`: the steps of a plan look at exactly the places where the views
meet a node again.
-/

namespace LoadBearing

/-- How a walk looks at a node. -/
inductive View where
  /-- at the node itself, inside a function or not -/
  | node (inside : Bool)
  /-- at the constructs that it lists -/
  | items (inside : Bool)
  /-- at the constructs that its body lists -/
  | members (inside : Bool)
  /-- at the constructs that its parameters list, and at its body -/
  | callable
  deriving DecidableEq, Repr

def Part.fills {n : Node} (child : Part n) (field : String) : Bool :=
  (n.part? field).any fun part => part.place = child.place

namespace View

open Plan

variable (source : SourceText) (inside : Bool) {n : Node} (child : Part n)

/-! ## From a node to its children -/

def intoItems : Option View :=
  if child.node.named then some (.node inside) else none

def intoMembers : Option View :=
  if child.fills "body" then some (.items inside) else none

def intoCallable : Option View :=
  -- Types and decorators are out of view, and so is a name that is computed.
  if child.fills "parameters" then some (.items true)
  else if child.fills "body" then some (.node true)
  else none

def intoFunctionValue : Option View :=
  if inside then intoItems inside child else intoCallable child

def intoMethod : Option View :=
  if (n.part? "name").isSome then intoCallable child else none

def intoDeclarator : Option View :=
  match n.part? "name" with
  | none => none
  | some name =>
    -- The name may be a pattern with default values: they are out of view.
    if !child.fills "value" || (required? source child).isSome then none
    else if name.kind = "identifier" && child.construct.isFunctionValue then some .callable
    else if name.kind = "identifier" && child.construct = .classDefinition then
      some (.members inside)
    else some (.node inside)

def intoPair : Option View :=
  if (n.part? "key").isNone || !child.fills "value" then none
  else if child.construct.isFunctionValue then some .callable
  else some (.node inside)

def fieldIsMethod (n : Node) : Bool :=
  ((n.part? "property").or (n.part? "name")).isSome &&
    (n.part? "value").any fun value => value.construct.isFunctionValue

def intoField : Option View :=
  if !fieldIsMethod n then intoItems inside child
  else if child.fills "value" then some .callable
  else none

def intoAssignment : Option View :=
  match n.part? "left", n.part? "right" with
  | some left, some right =>
    let exports := partText source left = "module.exports"
    if exports && right.kind = "identifier" then none
    else if right.construct.isFunctionValue && (exports || (target? source left).isSome) then
      -- The target only gives the name, even if something is called to find it.
      if child.fills "right" then some .callable else none
    else intoItems inside child
  | _, _ => none

def intoExported (isDefault : Bool) : Option View :=
  if child.construct = .functionDeclaration then some .callable
  else if isDefault && child.construct.isFunctionValue then some .callable
  else if isDefault && child.kind = "identifier" then none
  else some (.node inside)

def intoExport : Option View :=
  if child.node.named then
    intoExported inside child (n.children.any fun child => child.kind = "default")
  else none

def intoNode : Option View :=
  match n.construct with
  | .functionDeclaration => intoCallable child
  | .functionExpression | .arrowFunction => intoFunctionValue inside child
  | .method => intoMethod child
  | .classDefinition => intoMembers inside child
  | .declarator => intoDeclarator source inside child
  | .assignment => intoAssignment source inside child
  | .pair => intoPair inside child
  | .field => intoField inside child
  | .exportStatement => intoExport inside child
  | .importStatement => none
  | _ => intoItems inside child

/-- How a walk looks at a child of a node, if at all. -/
def into (view : View) : Option View :=
  match view with
  | .node inside => intoNode source inside child
  | .items inside => intoItems inside child
  | .members inside => intoMembers inside child
  | .callable => intoCallable child

/-- How a walk looks at what lies at a place below a node, if at all. -/
def at? (view : View) (n : Node) : List Nat → Option View
  | [] => some view
  | position :: rest =>
    n.parts[position]?.bind fun child =>
      (view.into source child).bind fun next => next.at? child.node rest

end View

/-! ## Children and their positions -/

namespace Node

variable {n : Node}

theorem place_of_getElem? {position : Nat} {part : Part n}
    (listed : n.parts[position]? = some part) : part.place = [position] := by
  have placed : (n.parts.map (·.place))[position]? = some part.place := by
    rw [List.getElem?_map, listed]
    rfl
  have short : position < n.children.length := by
    have bound := (List.getElem?_eq_some_iff.1 placed).1
    simpa [map_place_parts] using bound
  rw [map_place_parts, List.getElem?_map, List.getElem?_range short] at placed
  exact (Option.some.inj placed).symm

theorem getElem?_of_place {position : Nat} {part : Part n} (member : part ∈ n.parts)
    (placed : part.place = [position]) : n.parts[position]? = some part := by
  obtain ⟨other, listed⟩ := List.getElem?_of_mem member
  have same := placed.symm.trans (place_of_getElem? listed)
  rwa [(List.cons.inj same).1]

/-- A child is told from others by its place. -/
theorem eq_of_place_eq {one other : Part n} (isOne : one ∈ n.parts) (isOther : other ∈ n.parts)
    (same : one.place = other.place) : one = other := by
  obtain ⟨position, placed⟩ := exists_place_of_mem isOne
  have listed := getElem?_of_place isOne placed
  have again := getElem?_of_place isOther (same.symm.trans placed)
  exact Option.some.inj (listed.symm.trans again)

theorem mem_parts_of_part? {field : String} {part : Part n} (found : n.part? field = some part) :
    part ∈ n.parts :=
  List.mem_of_find?_eq_some found

end Node

theorem Part.fills_iff {n : Node} {child : Part n} (member : child ∈ n.parts) {field : String} :
    child.fills field = true ↔ n.part? field = some child := by
  cases found : n.part? field with
  | none => simp [Part.fills, found]
  | some part =>
    have isChild := Node.mem_parts_of_part? found
    simp only [Part.fills, found, Option.any_some, decide_eq_true_eq, Option.some.injEq]
    exact ⟨fun same => Node.eq_of_place_eq isChild member same, fun same => by rw [same]⟩

theorem Part.eq_of_fills {n : Node} {child value : Part n} (member : child ∈ n.parts)
    {field : String} (found : n.part? field = some value) (fills : child.fills field = true) :
    child = value :=
  Option.some.inj (((Part.fills_iff member).1 fills).symm.trans found)

/-! ## Following a view -/

namespace View

variable {source : SourceText} {n : Node}

/-- How a walk looks at what lies at a place strictly below a node, by how it looks at its
    children. -/
def descend (source : SourceText) (look : Part n → Option View) : List Nat → Option View
  | [] => none
  | position :: rest =>
    n.parts[position]?.bind fun child =>
      (look child).bind fun next => next.at? source child.node rest

theorem at?_eq_descend (view : View) (n : Node) {place : List Nat} (proper : place ≠ []) :
    view.at? source n place
      = descend source (fun child : Part n => view.into source child) place := by
  cases place with
  | nil => exact absurd rfl proper
  | cons position rest => rfl

theorem descend_child (look : Part n → Option View) {child : Part n} (member : child ∈ n.parts)
    (inner : List Nat) :
    descend source look (child.place ++ inner)
      = (look child).bind fun next => next.at? source child.node inner := by
  obtain ⟨position, placed⟩ := Node.exists_place_of_mem member
  simp [descend, placed, Node.getElem?_of_place member placed]

theorem exists_child_of_descend {look : Part n → Option View} {place : List Nat} {view : View}
    (seen : descend source look place = some view) :
    ∃ child ∈ n.parts, ∃ inner next, place = child.place ++ inner ∧ look child = some next ∧
      next.at? source child.node inner = some view := by
  cases place with
  | nil => cases seen
  | cons position rest =>
    obtain ⟨child, listed, seen⟩ := Option.bind_eq_some_iff.1 seen
    obtain ⟨next, looked, seen⟩ := Option.bind_eq_some_iff.1 seen
    have placed := Node.place_of_getElem? listed
    exact ⟨child, List.mem_of_getElem? listed, rest, next, by rw [placed]; rfl, looked, seen⟩

theorem at?_append (view : View) {n m : Node} {outer : List Nat} (found : n.at? outer = some m)
    (inner : List Nat) :
    view.at? source n (outer ++ inner)
      = (view.at? source n outer).bind fun next => next.at? source m inner := by
  induction outer generalizing view n with
  | nil =>
    obtain rfl : n = m := Option.some.inj found
    rfl
  | cons position rest ih =>
    obtain ⟨child, isChild, below⟩ := Option.bind_eq_some_iff.1 found
    obtain ⟨part, member, placed, rfl⟩ := Node.exists_mem_parts isChild
    have listed := Node.getElem?_of_place member placed
    cases looked : view.into source part with
    | none => simp [at?, listed, looked]
    | some next => simpa [at?, listed, looked] using ih next below

theorem descend_append (look : Part n → Option View) {m : Node} {outer : List Nat}
    (proper : outer ≠ []) (found : n.at? outer = some m) (inner : List Nat) :
    descend source look (outer ++ inner)
      = (descend source look outer).bind fun next => next.at? source m inner := by
  cases outer with
  | nil => exact absurd rfl proper
  | cons position rest =>
    obtain ⟨child, isChild, below⟩ := Option.bind_eq_some_iff.1 found
    obtain ⟨part, member, placed, rfl⟩ := Node.exists_mem_parts isChild
    have listed := Node.getElem?_of_place member placed
    cases looked : look part with
    | none => simp [descend, listed, looked]
    | some next => simpa [descend, listed, looked] using at?_append next below inner

/-! ## Views that list parts -/

/-- A look shows some parts as nodes, and no nodes but in them. -/
structure Lists (source : SourceText) (look : Part n → Option View) (parts : List (Part n))
    (inside : Bool) : Prop where
  shows : ∀ part ∈ parts, descend source look part.place = some (.node inside)
  covers : ∀ place seen, descend source look place = some (.node seen) →
    ∃ part ∈ parts, part.place <+: place

theorem lists_items (source : SourceText) (n : Node) (inside : Bool) :
    Lists source (intoItems inside) n.namedParts inside := by
  constructor
  · intro part member
    obtain ⟨isChild, named⟩ := List.mem_filter.1 member
    rw [← List.append_nil part.place, descend_child _ isChild, intoItems, if_pos named]
    rfl
  · intro place seen shown
    obtain ⟨child, member, inner, next, rfl, looked, -⟩ := exists_child_of_descend shown
    simp only [intoItems] at looked
    split at looked
    next named => exact ⟨child, List.mem_filter.2 ⟨member, named⟩, List.prefix_append _ _⟩
    next => cases looked

section Child

variable {look : Part n → Option View} {child : Part n} {inside : Bool}

/-- The items of a child that is looked at for its items. -/
theorem descend_namedParts (member : child ∈ n.parts) (looked : look child = some (.items inside))
    {part : Part n} (listed : part ∈ child.namedParts) :
    descend source look part.place = some (.node inside) := by
  obtain ⟨item, isItem, rfl⟩ := List.mem_map.1 listed
  change descend source look (child.place ++ item.place) = _
  rw [descend_child look member, looked]
  change (View.items inside).at? source child.node item.place = _
  rw [at?_eq_descend _ _ item.proper]
  exact (lists_items source child.node inside).shows item isItem

theorem exists_namedPart {inner : List Nat} {seen : Bool}
    (shown : (View.items inside).at? source child.node inner = some (.node seen)) :
    ∃ part ∈ child.namedParts, part.place <+: child.place ++ inner := by
  cases inner with
  | nil => cases shown
  | cons position rest =>
    rw [at?_eq_descend _ _ (by simp)] at shown
    obtain ⟨item, isItem, below⟩ := (lists_items source child.node inside).covers _ _ shown
    exact ⟨child.within item, List.mem_map_of_mem isItem,
      (List.prefix_append_right_inj _).2 below⟩

end Child

def memberParts (n : Node) : List (Part n) :=
  ((n.part? "body").map Part.namedParts).getD []

theorem lists_members (source : SourceText) (n : Node) (inside : Bool) :
    Lists source (intoMembers inside) (memberParts n) inside := by
  constructor
  · intro part member
    cases found : n.part? "body" with
    | none => simp [memberParts, found] at member
    | some body =>
      have isChild := Node.mem_parts_of_part? found
      simp only [memberParts, found, Option.map_some, Option.getD_some] at member
      exact descend_namedParts isChild (if_pos ((Part.fills_iff isChild).2 found)) member
  · intro place seen shown
    obtain ⟨child, member, inner, next, rfl, looked, shown⟩ := exists_child_of_descend shown
    simp only [intoMembers] at looked
    split at looked
    next fills =>
      obtain rfl := Option.some.inj looked
      rw [memberParts, (Part.fills_iff member).1 fills]
      exact exists_namedPart shown
    next => cases looked

theorem lists_callable (source : SourceText) (n : Node) :
    Lists source intoCallable (Plan.body n) true := by
  constructor
  · intro part member
    rcases List.mem_append.1 member with inParameters | isBody
    · cases found : n.part? "parameters" with
      | none => simp [found] at inParameters
      | some parameters =>
        have isChild := Node.mem_parts_of_part? found
        simp only [found, Option.map_some, Option.getD_some] at inParameters
        exact descend_namedParts isChild (if_pos ((Part.fills_iff isChild).2 found)) inParameters
    · have found : n.part? "body" = some part := by simpa using isBody
      have isChild := Node.mem_parts_of_part? found
      -- A child fills one field only, so the body is not taken for the parameters.
      have notParameters : ¬ part.fills "parameters" = true := fun fills =>
        (Node.apart_of_part? (by decide) ((Part.fills_iff isChild).1 fills) found).1
          (List.prefix_refl _)
      rw [← List.append_nil part.place, descend_child _ isChild, intoCallable,
        if_neg notParameters, if_pos ((Part.fills_iff isChild).2 found)]
      rfl
  · -- Below the parameters only what they list is a node in view; the body is one itself.
    intro place seen shown
    obtain ⟨child, member, inner, next, rfl, looked, shown⟩ := exists_child_of_descend shown
    simp only [intoCallable] at looked
    split at looked
    next fills =>
      obtain rfl := Option.some.inj looked
      obtain ⟨part, listed, below⟩ := exists_namedPart shown
      refine ⟨part, List.mem_append_left _ ?_, below⟩
      rwa [(Part.fills_iff member).1 fills]
    next =>
      split at looked
      next fills =>
        refine ⟨child, List.mem_append_right _ ?_, List.prefix_append _ _⟩
        rw [(Part.fills_iff member).1 fills]
        simp
      next => cases looked

end View

/-! ## Steps and views -/

def Spot.through {n : Node} (spot : Spot n) (part : Part spot.node) : Spot n where
  node := part.node
  place := spot.place ++ part.place
  found := by rw [Node.at?_append, spot.found, Option.bind_some, part.found]

/-- Where a step looks, with what surrounds the node there. -/
def Step.outlook {n : Node} (around : Surroundings) (place : List Nat) :
    Step n → List (Spot n × Surroundings)
  | .visit part => [(part.toSpot, { around with parent := part.parent })]
  | .define callable _ _ => (Plan.body callable.node).map fun part =>
      (callable.through part,
        { around with parent := part.parent, owner := some (place ++ callable.place) })
  | .enter name body => body.map fun part =>
      (part.toSpot, { around with parent := part.parent, classes := name :: around.classes })
  | .call _ _ _ | .branch | .bind _ _ | .exportDefault _ => []

def Step.Quiet {n : Node} : Step n → Prop
  | .bind _ _ | .exportDefault _ | .call _ _ _ | .branch => True
  | .visit _ | .define _ _ _ | .enter _ _ => False

namespace View

open Plan

variable {source : SourceText} {n : Node} {around : Surroundings} {place : List Nat}
  {look : Part n → Option View} {child : Part n}

/-- Steps look at the nodes that a look shows, and inside a region at all of them. -/
structure Renders (source : SourceText) (around : Surroundings) (place : List Nat)
    (look : Part n → Option View) (region : List Nat) (steps : List (Step n)) : Prop where
  shows : ∀ step ∈ steps, ∀ target ∈ step.outlook around place,
    descend source look target.1.place = some (.node target.2.owner.isSome)
  defines : ∀ callable d isMember, Step.define callable d isMember ∈ steps → ∀ inner ≠ [],
    descend source look (callable.place ++ inner) = View.callable.at? source callable.node inner
  covers : ∀ inner seen, descend source look (region ++ inner) = some (.node seen) →
    ∃ step ∈ steps, ∃ target ∈ step.outlook around place, target.1.place <+: region ++ inner

namespace Renders

theorem not_mem_outlook {step : Step n} (quiet : step.Quiet) {target : Spot n × Surroundings} :
    target ∉ step.outlook around place := by
  cases step with
  | visit | define | enter => cases quiet
  | call | branch | bind | exportDefault => exact List.not_mem_nil

theorem of_quiet {steps : List (Step n)} (quiet : ∀ step ∈ steps, step.Quiet) {region : List Nat}
    (hidden : ∀ inner, descend source look (region ++ inner) = none) :
    Renders source around place look region steps := by
  refine ⟨fun step member target among => absurd among (not_mem_outlook (quiet step member)),
    fun callable d isMember member => (quiet _ member).elim, fun inner seen shown => ?_⟩
  rw [hidden] at shown
  cases shown

/-- Steps that look nowhere make no difference. -/
theorem widen {steps more : List (Step n)} {region : List Nat}
    (renders : Renders source around place look region steps) (subset : steps ⊆ more)
    (quiet : ∀ step ∈ more, step ∈ steps ∨ step.Quiet) :
    Renders source around place look region more := by
  refine ⟨fun step member target among => ?_, fun callable d isMember member => ?_,
    fun inner seen shown => ?_⟩
  · rcases quiet step member with before | silent
    · exact renders.shows step before target among
    · exact absurd among (not_mem_outlook silent)
  · rcases quiet _ member with before | silent
    · exact renders.defines callable d isMember before
    · cases silent
  · obtain ⟨step, member, target, among, below⟩ := renders.covers inner seen shown
    exact ⟨step, subset member, target, among, below⟩

theorem followed {step : Step n} {later : List (Step n)} {region : List Nat}
    (renders : Renders source around place look region [step])
    (quiet : ∀ other ∈ later, other.Quiet) :
    Renders source around place look region (step :: later) :=
  renders.widen (List.cons_subset_cons _ (List.nil_subset _)) fun _ member =>
    (List.mem_cons.1 member).imp List.mem_singleton.2 (quiet _)

theorem whole {field : String} (found : n.part? field = some child)
    (only : ∀ other : Part n, other.fills field = false → look other = none)
    {steps : List (Step n)} (renders : Renders source around place look child.place steps) :
    Renders source around place look [] steps := by
  refine ⟨renders.shows, renders.defines, fun inner seen shown => ?_⟩
  obtain ⟨other, member, rest, next, rfl, looked, -⟩ := exists_child_of_descend shown
  cases fills : other.fills field with
  | false =>
    rw [only other fills] at looked
    cases looked
  | true =>
    rw [Part.eq_of_fills member found fills] at shown ⊢
    exact renders.covers rest seen shown

/-! ### One child -/

theorem hidden (member : child ∈ n.parts) (looked : look child = none) {steps : List (Step n)}
    (quiet : ∀ step ∈ steps, step.Quiet) :
    Renders source around place look child.place steps :=
  of_quiet quiet fun inner => by rw [descend_child look member, looked]; rfl

theorem visit (member : child ∈ n.parts) (looked : look child = some (.node around.owner.isSome)) :
    Renders source around place look child.place [.visit child] := by
  refine ⟨fun step isStep target among => ?_, fun callable d isMember isStep => ?_,
    fun inner seen shown => ?_⟩
  · obtain rfl := List.mem_singleton.1 isStep
    obtain rfl := List.mem_singleton.1 among
    change descend source look child.place = _
    rw [← List.append_nil child.place, descend_child look member, looked]
    rfl
  · cases List.mem_singleton.1 isStep
  · exact ⟨_, List.mem_singleton_self _, _, List.mem_singleton_self _, List.prefix_append _ _⟩

/-- A function that is looked at for its parameters and its body. -/
theorem define {spot : Spot n}
    (reaches : ∀ inner ≠ [], descend source look (spot.place ++ inner)
      = View.callable.at? source spot.node inner)
    (bare : ∀ seen, descend source look spot.place ≠ some (.node seen))
    (d : Definition) (isMember : Bool) :
    Renders source around place look spot.place [.define spot d isMember] := by
  have lists := lists_callable source spot.node
  refine ⟨fun step isStep target among => ?_, fun callable d isMember isStep inner proper => ?_,
    fun inner seen shown => ?_⟩
  · obtain rfl := List.mem_singleton.1 isStep
    obtain ⟨part, isPart, rfl⟩ := List.mem_map.1 among
    change descend source look (spot.place ++ part.place) = _
    rw [reaches _ part.proper, at?_eq_descend _ _ part.proper]
    exact lists.shows part isPart
  · cases List.mem_singleton.1 isStep
    exact reaches inner proper
  · have proper : inner ≠ [] := by
      rintro rfl
      exact bare seen (List.append_nil spot.place ▸ shown)
    rw [reaches inner proper, at?_eq_descend _ _ proper] at shown
    obtain ⟨part, isPart, below⟩ := lists.covers inner seen shown
    exact ⟨_, List.mem_singleton_self _, _, List.mem_map_of_mem isPart,
      (List.prefix_append_right_inj _).2 below⟩

theorem defineSelf (d : Definition) (isMember : Bool) :
    Renders source around place intoCallable [] [.define (Spot.self n) d isMember] := by
  have reaches : ∀ inner ≠ [], descend source intoCallable ((Spot.self n).place ++ inner)
      = View.callable.at? source (Spot.self n).node inner :=
    fun _ proper => (at?_eq_descend .callable n proper).symm
  exact define reaches nofun d isMember

theorem defineChild (member : child ∈ n.parts) (looked : look child = some .callable)
    {spot : Spot n} (placed : spot.place = child.place) (same : spot.node = child.node)
    (d : Definition) (isMember : Bool) :
    Renders source around place look child.place [.define spot d isMember] := by
  have reaches : ∀ inner, descend source look (spot.place ++ inner)
      = View.callable.at? source spot.node inner := by
    intro inner
    rw [placed, same, descend_child look member, looked, Option.bind_some]
  rw [← placed]
  refine define (fun inner _ => reaches inner) (fun seen shown => ?_) d isMember
  rw [← List.append_nil spot.place, reaches] at shown
  cases shown

theorem enter {parts : List (Part n)} {region : List Nat}
    (shows : ∀ part ∈ parts, descend source look part.place = some (.node around.owner.isSome))
    (covers : ∀ inner seen, descend source look (region ++ inner) = some (.node seen) →
      ∃ part ∈ parts, part.place <+: region ++ inner) (name : String) :
    Renders source around place look region [.enter name parts] := by
  refine ⟨fun step isStep target among => ?_, fun callable d isMember isStep => ?_,
    fun inner seen shown => ?_⟩
  · obtain rfl := List.mem_singleton.1 isStep
    obtain ⟨part, isPart, rfl⟩ := List.mem_map.1 among
    exact shows part isPart
  · cases List.mem_singleton.1 isStep
  · obtain ⟨part, isPart, below⟩ := covers inner seen shown
    exact ⟨_, List.mem_singleton_self _, _, List.mem_map_of_mem isPart, below⟩

theorem enterSelf (name : String) :
    Renders source around place (intoMembers around.owner.isSome) []
      [.enter name (memberParts n)] :=
  enter (lists_members source n _).shows (fun inner => (lists_members source n _).covers inner) name

theorem enterChild (member : child ∈ n.parts)
    (looked : look child = some (.members around.owner.isSome)) (name : String) :
    Renders source around place look child.place
      [.enter name ((memberParts child.node).map child.within)] := by
  have lists := lists_members source child.node around.owner.isSome
  refine enter (fun part isPart => ?_) (fun inner seen shown => ?_) name
  · obtain ⟨item, isItem, rfl⟩ := List.mem_map.1 isPart
    change descend source look (child.place ++ item.place) = _
    rw [descend_child look member, looked, Option.bind_some, at?_eq_descend _ _ item.proper]
    exact lists.shows item isItem
  · rw [descend_child look member, looked, Option.bind_some] at shown
    cases inner with
    | nil => cases shown
    | cons position rest =>
      rw [at?_eq_descend _ _ (by simp)] at shown
      obtain ⟨item, isItem, below⟩ := lists.covers _ seen shown
      exact ⟨child.within item, List.mem_map_of_mem isItem,
        (List.prefix_append_right_inj _).2 below⟩

theorem lookThrough (source : SourceText) (around : Surroundings) (place : List Nat) (n : Node) :
    Renders source around place (intoItems around.owner.isSome) [] (Plan.lookThrough n) := by
  have lists := lists_items source n around.owner.isSome
  refine ⟨fun step isStep target among => ?_, fun callable d isMember isStep => ?_,
    fun inner seen shown => ?_⟩
  · obtain ⟨part, isPart, rfl⟩ := List.mem_map.1 isStep
    obtain rfl := List.mem_singleton.1 among
    exact lists.shows part isPart
  · obtain ⟨part, -, same⟩ := List.mem_map.1 isStep
    cases same
  · obtain ⟨part, isPart, below⟩ := lists.covers _ seen shown
    exact ⟨_, List.mem_map_of_mem isPart, _, List.mem_singleton_self _, below⟩

theorem blank {steps : List (Step n)} (quiet : ∀ step ∈ steps, step.Quiet)
    (none : ∀ child, look child = none) :
    Renders source around place look [] steps := by
  refine of_quiet quiet fun inner => ?_
  cases shown : descend source look ([] ++ inner) with
  | none => rfl
  | some view =>
    obtain ⟨child, -, _, _, -, looked, -⟩ := exists_child_of_descend shown
    rw [none child] at looked
    cases looked

end Renders

/-! ## Constructs -/

theorem exists_freeFunction (source : SourceText) (n : Node) :
    ∃ d, freeFunction source n = .define (Spot.self n) d false := by
  rw [freeFunction]
  split <;> exact ⟨_, rfl⟩

theorem exists_functionDeclaration (source : SourceText) (n : Node) :
    ∃ d, functionDeclaration source n = .define (Spot.self n) d false := by
  rw [functionDeclaration]
  split
  · exact ⟨_, rfl⟩
  · exact exists_freeFunction source n

theorem renders_functionDeclaration :
    Renders source around place intoCallable [] [functionDeclaration source n] := by
  obtain ⟨d, same⟩ := exists_functionDeclaration source n
  rw [same]
  exact Renders.defineSelf _ _

theorem renders_functionValue :
    Renders source around place (intoFunctionValue around.owner.isSome) []
      (functionValue source around.owner.isSome n) := by
  unfold intoFunctionValue functionValue
  split
  · exact Renders.lookThrough source around place n
  · obtain ⟨d, same⟩ := exists_freeFunction source n
    rw [same]
    exact Renders.defineSelf _ _

theorem renders_method (parent : String) :
    Renders source around place intoMethod [] (method source parent n) := by
  unfold intoMethod
  rw [method]
  cases n.part? "name" with
  | none => exact Renders.blank (by simp) fun _ => rfl
  | some name => exact Renders.defineSelf _ _

theorem renders_classDefinition :
    Renders source around place (intoMembers around.owner.isSome) []
      [classDefinition source none n] :=
  Renders.enterSelf _

theorem renders_pair :
    Renders source around place (intoPair around.owner.isSome) [] (pair source n) := by
  unfold intoPair
  rw [pair]
  cases n.part? "key" with
  | none => exact Renders.blank (by simp) fun _ => rfl
  | some key =>
    cases isValue : n.part? "value" with
    | none => exact Renders.blank (by simp) fun child => by simp [Part.fills, isValue]
    | some value =>
      have member := Node.mem_parts_of_part? isValue
      have fills := (Part.fills_iff member).2 isValue
      refine Renders.whole isValue (fun other unfilled => by simp [unfilled]) ?_
      dsimp only
      split
      next isFunction => exact Renders.defineChild member (by simp [fills, isFunction]) rfl rfl _ _
      next notFunction => exact Renders.visit member (by simp [fills, notFunction])

theorem renders_field :
    Renders source around place (intoField around.owner.isSome) [] (field source n) := by
  unfold intoField fieldIsMethod
  rw [field]
  have through := Renders.lookThrough source around place n
  cases (n.part? "property").or (n.part? "name") with
  | none => exact through
  | some name =>
    cases isValue : n.part? "value" with
    | none => exact through
    | some value =>
      have member := Node.mem_parts_of_part? isValue
      have fills := (Part.fills_iff member).2 isValue
      cases isFunction : value.construct.isFunctionValue with
      | false => simpa [isFunction] using through
      | true =>
        simp only [isFunction, Option.isSome_some, Option.any_some, Bool.and_self, Bool.not_true,
          Bool.false_eq_true, ↓reduceIte]
        refine Renders.whole isValue (fun other unfilled => by simp [unfilled]) ?_
        exact Renders.defineChild member (by simp [fills]) rfl rfl _ _

theorem quiet_of_binds {steps : List (Step n)}
    (binds : ∀ step ∈ steps, ∃ name binding, step = .bind name binding) :
    ∀ step ∈ steps, step.Quiet := by
  intro step member
  obtain ⟨name, binding, rfl⟩ := binds step member
  trivial

theorem renders_declarator :
    Renders source around place (intoDeclarator source around.owner.isSome) []
      (declarator source n) := by
  unfold intoDeclarator
  rw [declarator]
  cases n.part? "name" with
  | none => exact Renders.blank (by simp) fun _ => rfl
  | some name =>
    cases isValue : n.part? "value" with
    | none => exact Renders.blank (by simp) fun child => by simp [Part.fills, isValue]
    | some value =>
      have member := Node.mem_parts_of_part? isValue
      have fills := (Part.fills_iff member).2 isValue
      refine Renders.whole isValue (fun other unfilled => by simp [unfilled]) ?_
      dsimp only
      cases module : required? source value with
      | some specifier =>
        -- An import binds names and looks nowhere.
        exact Renders.hidden member (by simp [module]) (quiet_of_binds (binds_requirement _ _))
      | none =>
        dsimp only
        split
        next isFunction =>
          exact Renders.defineChild member (by simp [fills, module, isFunction]) rfl rfl _ _
        next notFunction =>
          split
          next isClass =>
            exact Renders.enterChild member (by simp [fills, module, notFunction, isClass]) _
          next notClass =>
            exact Renders.visit member (by simp [fills, module, notFunction, notClass])

theorem renders_assignment :
    Renders source around place (intoAssignment source around.owner.isSome) []
      (assignment source n) := by
  unfold intoAssignment
  rw [assignment]
  have through := Renders.lookThrough source around place n
  cases n.part? "left" with
  | none => exact Renders.blank (by simp) fun _ => rfl
  | some left =>
    cases isRight : n.part? "right" with
    | none => exact Renders.blank (by simp) fun _ => rfl
    | some right =>
      have member := Node.mem_parts_of_part? isRight
      have fills := (Part.fills_iff member).2 isRight
      -- In two cases the right side is defined and nothing else is looked at.
      have bound : ∀ spot d isMember, spot.place = right.place → spot.node = right.node →
          Renders source around place
            (fun child : Part n => if child.fills "right" = true then some .callable else none) []
            [.define spot d isMember] := fun spot d isMember placed same =>
        Renders.whole isRight (fun other unfilled => by simp [unfilled])
          (Renders.defineChild member (if_pos fills) placed same d isMember)
      by_cases exports : partText source left = "module.exports"
      · by_cases named : right.kind = "identifier"
        · simp only [exports, named, decide_true, Bool.and_self, ↓reduceIte]
          exact Renders.blank (by simp [Step.Quiet]) fun _ => rfl
        · cases isFunction : right.construct.isFunctionValue with
          | false => simpa [exports, named, isFunction] using through
          | true =>
            simp only [exports, named, isFunction, decide_true, decide_false, Bool.and_false,
              Bool.true_and, Bool.true_or, Bool.false_eq_true, ↓reduceIte]
            exact (bound _ _ _ rfl rfl).followed (by simp [Step.Quiet])
      · cases isFunction : right.construct.isFunctionValue with
        | false => simpa [exports, isFunction] using through
        | true =>
          cases named : target? source left with
          | none => simpa [exports, isFunction, named] using through
          | some target =>
            simp only [exports, isFunction, named, decide_false, Bool.false_and, Bool.false_or,
              Bool.true_and, Option.isSome_some, Bool.false_eq_true, ↓reduceIte]
            exact bound _ _ _ rfl rfl

theorem renders_exported {isDefault : Bool} (member : child ∈ n.parts)
    (looked : look child = intoExported around.owner.isSome child isDefault) :
    Renders source around place look child.place (exported source isDefault child) := by
  have placed : ((Spot.self child.node).within child).place = child.place := List.append_nil _
  unfold intoExported at looked
  rw [exported]
  split
  next isDeclaration =>
    obtain ⟨d, same⟩ := exists_functionDeclaration source child.node
    rw [if_pos isDeclaration] at looked
    rw [same]
    refine (Renders.defineChild member looked placed rfl d false).followed fun other later => ?_
    split at later
    · split at later
      · obtain rfl := List.mem_singleton.1 later
        trivial
      · cases later
    · cases later
  next notDeclaration =>
    rw [if_neg notDeclaration] at looked
    split
    next isFunction =>
      rw [if_pos isFunction] at looked
      exact (Renders.defineChild member looked placed rfl _ _).followed (by simp [Step.Quiet])
    next notFunction =>
      rw [if_neg notFunction] at looked
      split
      next isName =>
        rw [if_pos isName] at looked
        exact Renders.hidden member looked (by simp [Step.Quiet])
      next notName =>
        rw [if_neg notName] at looked
        exact Renders.visit member looked

theorem renders_exportStatement :
    Renders source around place (intoExport around.owner.isSome) [] (exportStatement source n) := by
  rw [exportStatement]
  have each : ∀ child ∈ n.namedParts, Renders source around place
      (intoExport around.owner.isSome) child.place
      (exported source (n.children.any fun child => child.kind = "default") child) := by
    intro child member
    obtain ⟨isChild, named⟩ := List.mem_filter.1 member
    exact renders_exported isChild (if_pos named)
  refine ⟨fun step member => ?_, fun callable d isMember member => ?_, fun inner seen shown => ?_⟩
  · obtain ⟨child, isChild, member⟩ := List.mem_flatMap.1 member
    exact (each child isChild).shows step member
  · obtain ⟨child, isChild, member⟩ := List.mem_flatMap.1 member
    exact (each child isChild).defines callable d isMember member
  · -- What is seen lies in one of the constructs, so the steps for that one look at it.
    obtain ⟨child, member, rest, next, rfl, looked, -⟩ := exists_child_of_descend shown
    have named : child.node.named = true := by
      by_contra unnamed
      rw [intoExport, if_neg unnamed] at looked
      cases looked
    have isChild : child ∈ n.namedParts := List.mem_filter.2 ⟨member, named⟩
    obtain ⟨step, isStep, target⟩ := (each child isChild).covers rest seen shown
    exact ⟨step, List.mem_flatMap.2 ⟨child, isChild, isStep⟩, target⟩

theorem renders_importStatement :
    Renders source around place (fun _ => none) [] (importStatement source n) := by
  refine Renders.blank ?_ fun _ => rfl
  rw [importStatement]
  split
  · refine quiet_of_binds fun step member => ?_
    obtain ⟨part, -, member⟩ := List.mem_flatMap.1 member
    exact binds_importPart _ part step member
  · simp

/-- The plan of a node looks where the view of the node leads. -/
theorem renders_plan (source : SourceText) (around : Surroundings) (place : List Nat) (n : Node) :
    Renders source around place (intoNode source around.owner.isSome) []
      (plan source around.parent around.owner.isSome n) := by
  have through := Renders.lookThrough source around place n
  have decided : Renders source around place (intoItems around.owner.isSome) []
      (.branch :: lookThrough n) :=
    through.widen (List.subset_cons_self _ _) (by simp +contextual [Step.Quiet])
  rw [plan]
  split <;> unfold intoNode
  next is => simpa only [is] using renders_functionDeclaration
  next is => simpa only [is] using renders_functionValue
  next is => simpa only [is] using renders_functionValue
  next is => simpa only [is] using renders_method around.parent
  next is => simpa only [is] using renders_classDefinition
  next is => simpa only [is] using renders_declarator
  next is => simpa only [is] using renders_assignment
  next is => simpa only [is] using renders_pair
  next is => simpa only [is] using renders_field
  next is => simpa only [is] using renders_exportStatement
  next is => simpa only [is] using renders_importStatement
  next is =>
    simp only [is]
    rw [call]
    split
    · exact through.widen (List.subset_cons_self _ _) (by simp +contextual [Step.Quiet])
    · exact through
  -- The eight constructs that always decide.
  iterate 8
    next is => simpa only [is] using decided
  next is =>
    simp only [is]
    rw [binary]
    split
    · split
      · exact decided
      · exact through
    · exact through
  next is => simpa only [is] using through

end View

end LoadBearing
