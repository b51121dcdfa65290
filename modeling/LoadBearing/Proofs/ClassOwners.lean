import LoadBearing.Proofs.Spans

/-! # Members belong to the class around them

A walk does not read the owner of a method from the tree: it keeps a stack of the classes that it is
in, and takes the innermost.  Every step leaves the stack as it found it, so the innermost class is
the one whose body holds the member.

`plan_classStep` says once what a step can do about classes.  `Situated` is the invariant of the
nodes that a walk comes to: what surrounds a node fits its place in the tree, and the node that
holds it leaves it to the walk.  A class that a declarator gives a name to and the function of a
field are not left to the walk, since the declarator and the field deal with them.
-/

namespace LoadBearing

/-! ## The stack of classes -/

namespace Walk

theorem classes_foldl {α : Type} {run : Walk → α → Walk} {items : List α}
    (each : ∀ item ∈ items, ∀ w, (run w item).classes = w.classes) (w : Walk) :
    (items.foldl run w).classes = w.classes := by
  induction items generalizing w with
  | nil => rfl
  | cons item rest ih =>
    rw [List.foldl_cons, ih (fun other member => each other (List.mem_cons_of_mem _ member)),
      each item List.mem_cons_self]

variable {source : SourceText} {n : Node}

theorem classes_perform_of_smaller
    (smaller : ∀ (m : Node), m.size < n.size → ∀ parent current w,
      (Walk.visit source parent current m w).classes = w.classes)
    (current : Option Nat) (step : Step n) (w : Walk) :
    (w.perform source current step).classes = w.classes := by
  cases step with
  | visit part => exact smaller part.node part.size_lt _ _ w
  | define callable d isMember =>
    exact classes_foldl (fun part _ later =>
      smaller part.node (Nat.lt_of_lt_of_le part.size_lt callable.size_le) _ _ later) _
  | enter name body =>
    -- The class that is left is the one that was entered.
    have inside := classes_foldl (fun part (_ : part ∈ body) later =>
      smaller part.node part.size_lt part.parent current later) (w.enter name)
    exact congrArg List.tail inside
  | call name receiver line => cases current <;> rfl
  | branch => cases current <;> rfl
  | bind name binding => rfl
  | exportDefault name => rfl

theorem classes_visit (parent : String) (current : Option Nat) (w : Walk) :
    (w.visit source parent current n).classes = w.classes := by
  induction size : n.size using Nat.strongRecOn generalizing n parent current w with
  | ind bound ih =>
    rw [visit_eq]
    refine classes_foldl (fun step _ later => ?_) w
    refine classes_perform_of_smaller (fun m less parent current w => ?_) current step later
    exact ih m.size (size ▸ less) parent current w rfl

theorem classes_perform (current : Option Nat) (step : Step n) (w : Walk) :
    (w.perform source current step).classes = w.classes :=
  classes_perform_of_smaller (fun _ _ parent current w => classes_visit parent current w)
    current step w

end Walk

/-! ## Children and their holders -/

namespace Node

variable {n : Node} {part : Part n}

theorem exists_holder {root : Node} {place : List Nat} (found : root.at? place = some n)
    (proper : place ≠ []) :
    ∃ holder, root.at? place.dropLast = some holder ∧ n ∈ holder.children := by
  rw [← List.dropLast_append_getLast proper, at?_append] at found
  obtain ⟨holder, above, below⟩ := Option.bind_eq_some_iff.1 found
  obtain ⟨child, isChild, same⟩ := Option.bind_eq_some_iff.1 below
  obtain rfl := Option.some.inj same
  exact ⟨holder, above, List.mem_of_getElem? isChild⟩

theorem mem_children_of_mem_parts (member : part ∈ n.parts) : part.node ∈ n.children := by
  obtain ⟨position, placed⟩ := exists_place_of_mem member
  obtain ⟨holder, above, isChild⟩ := exists_holder part.found part.proper
  rw [placed] at above
  obtain rfl := Option.some.inj above
  exact isChild

theorem parent_of_mem_parts (member : part ∈ n.parts) : part.parent = n.kind := by
  obtain ⟨entry, -, rfl⟩ := List.mem_map.1 member
  rfl

theorem dropLast_append_place (member : part ∈ n.parts) (outer : List Nat) :
    (outer ++ part.place).dropLast = outer := by
  obtain ⟨position, placed⟩ := exists_place_of_mem member
  rw [placed, List.dropLast_concat]

theorem getLast?_append_place (member : part ∈ n.parts) (outer : List Nat) :
    (outer ++ part.place).getLast?.toList = part.place := by
  obtain ⟨position, placed⟩ := exists_place_of_mem member
  rw [placed, List.getLast?_concat]
  rfl

theorem construct_of_kind_eq (isBody : n.kind = "class_body") : n.construct = .other := by
  rw [construct, isBody]
  rfl

end Node

/-! ## Classes in a tree -/

namespace Node

/-- A node that may list others: it is no class and no declarator. -/
def MayList (n : Node) : Prop :=
  n.construct ≠ .classDefinition ∧ n.construct ≠ .declarator

/-- The parameters of a function and the body of a class may list others. -/
def HasLists (n : Node) : Prop :=
  ∀ child ∈ n.children, (n.construct.isCallable = true ∧ child.field = "parameters") ∨
    (n.construct = .classDefinition ∧ child.field = "body") → child.MayList

/-- Lists are where every grammar has them: at the root, as the parameters of functions and as the
    bodies of classes.  A walk goes through the items of a list but does not look at the list
    itself, so a class in place of one would not be entered. -/
structure Listed (root : Node) : Prop where
  top : root.MayList
  below : root.Everywhere HasLists

/-- Of the children of a node, only those of a class can be class bodies, and only those of a class
    body can be fields. -/
def HoldsClassParts (n : Node) : Prop :=
  ∀ child ∈ n.children, (child.kind = "class_body" → n.construct = .classDefinition) ∧
    (child.construct = .field → n.kind = "class_body")

/-- Class bodies stand only in classes, and fields only in class bodies. -/
structure ClassesInPlace (root : Node) : Prop where
  top : root.kind ≠ "class_body" ∧ root.construct ≠ .field
  below : root.Everywhere HoldsClassParts

instance : DecidablePred MayList := fun _ => inferInstanceAs (Decidable (_ ∧ _))

instance : DecidablePred HasLists := fun n =>
  inferInstanceAs (Decidable (∀ child ∈ n.children, _ → _))

instance : DecidablePred HoldsClassParts := fun n =>
  inferInstanceAs (Decidable (∀ child ∈ n.children, _ ∧ _))

end Node

/-- The name that a declarator gives to the value at a place below it, if its own name is an
    identifier. -/
def givenName? (source : SourceText) (holder : Node) (place : List Nat) : Option String :=
  match holder.part? "name", holder.part? "value" with
  | some name, some value =>
    if holder.construct = .declarator ∧ name.kind = "identifier" ∧ value.place = place then
      some (Plan.partText source name)
    else none
  | _, _ => none

/-- The name of the class at a place: its own, or else the one that a declarator gives it. -/
def className (source : SourceText) (root : Node) (place : List Nat) : String :=
  let own := (root.at? place).bind fun n => (n.part? "name").map (Plan.partText source)
  let given := (root.at? place.dropLast).bind fun holder =>
    givenName? source holder place.getLast?.toList
  (own.or given).getD "<class>"

/-- The place of the class whose body holds the node at a place, if a class body holds it. -/
def classAround? (root : Node) (place : List Nat) : Option (List Nat) :=
  if (root.at? place.dropLast).any fun holder => holder.kind = "class_body" then
    some place.dropLast.dropLast
  else none

/-- The definition of the function at a place has the right owner.  For a method and for a function
    that is a field, this is the class whose body holds the method or the field.  A method that no
    class body holds has no owner. -/
structure OwnedExactly (source : SourceText) (root : Node) (d : Definition) (place : List Nat) :
    Prop where
  method : ∀ n, root.at? place = some n → n.construct = .method →
    (n.part? "name").map (Plan.partText source) = some d.name ∧
    d.owner = (classAround? root place).map (className source root)
  field : ∀ holder, root.at? place.dropLast = some holder → holder.construct = .field →
    View.fieldIsMethod holder = true →
    (holder.part? "value").any (fun value => value.place = place.getLast?.toList) = true →
    ((holder.part? "property").or (holder.part? "name")).map (Plan.partText source) = some d.name ∧
    ∃ outer, classAround? root place.dropLast = some outer ∧
      d.owner = some (className source root outer)

/-! ## Steps and classes -/

/-- A node leaves the child at a place to the walk. -/
structure Leaves (source : SourceText) (holder : Node) (place : List Nat) (child : Node) :
    Prop where
  notClass : holder.construct ≠ .classDefinition
  unnamed : child.construct = .classDefinition → givenName? source holder place = none
  notMethod : holder.construct = .field → View.fieldIsMethod holder = false

/-- What a step of the plan of a node can do about classes. -/
inductive ClassStep (source : SourceText) (parent : String) (n : Node) : Step n → Prop where
  | quiet {step : Step n} : step.Quiet → ClassStep source parent n step
  | visit {child : Part n} : child ∈ n.parts → Leaves source n child.place child.node →
      ClassStep source parent n (.visit child)
  | method {name : Part n} : n.construct = .method → n.part? "name" = some name →
      ClassStep source parent n
        (Plan.defineSelf source (Plan.partText source name) .method (parent = "class_body") n)
  | field {name value : Part n} : n.construct = .field →
      (n.part? "property").or (n.part? "name") = some name → n.part? "value" = some value →
      value.construct.isFunctionValue = true →
      ClassStep source parent n
        (Plan.definePart source (Plan.partText source name) .method true value)
  | function {callable : Spot n} {d : Definition} : callable.node.construct.isCallable = true →
      callable.node.construct ≠ .method → callable.place.length ≤ 1 → n.construct ≠ .field →
      ClassStep source parent n (.define callable d false)
  | enter : n.construct = .classDefinition →
      ClassStep source parent n (Plan.classDefinition source none n)
  /-- a class that a declarator gives a name to -/
  | enterValue {name value : Part n} : n.construct = .declarator → n.part? "name" = some name →
      name.kind = "identifier" → n.part? "value" = some value →
      value.construct = .classDefinition →
      ClassStep source parent n
        ((Plan.classDefinition source (some (Plan.partText source name)) value.node).within value)

theorem Construct.ne_method_of_isFunctionValue {construct : Construct}
    (isValue : construct.isFunctionValue = true) : construct ≠ .method := by
  rintro rfl
  cases isValue

/-- Whether it may keep some of its children from the walk and deal with them itself. -/
def Construct.keeps : Construct → Bool
  | .classDefinition | .declarator | .field => true
  | _ => false

theorem Construct.keeps_eq_false_iff {construct : Construct} : construct.keeps = false ↔
    construct ≠ .classDefinition ∧ construct ≠ .declarator ∧ construct ≠ .field := by
  cases construct <;> decide

theorem Construct.keeps_of_isCallable {construct : Construct}
    (callable : construct.isCallable = true) : construct.keeps = false := by
  cases construct <;> first | rfl | cases callable

section Steps

open Plan

variable {source : SourceText} {parent : String} {n child : Node} {place : List Nat}

theorem givenName?_eq_none (notDeclarator : n.construct ≠ .declarator) :
    givenName? source n place = none := by
  rw [givenName?]
  split
  · exact if_neg fun given => notDeclarator given.1
  · rfl

theorem Leaves.of_keeps (keepsNone : n.construct.keeps = false) : Leaves source n place child := by
  obtain ⟨notClass, notDeclarator, notField⟩ := Construct.keeps_eq_false_iff.1 keepsNone
  exact ⟨notClass, fun _ => givenName?_eq_none notDeclarator,
    fun isField => absurd isField notField⟩

namespace ClassStep

variable {inside : Bool}

theorem of_quiet {steps : List (Step n)} (quiet : ∀ step ∈ steps, step.Quiet) :
    ∀ step ∈ steps, ClassStep source parent n step :=
  fun step member => .quiet (quiet step member)

theorem lookThrough (leaves : ∀ child : Part n, Leaves source n child.place child.node) :
    ∀ step ∈ Plan.lookThrough n, ClassStep source parent n step := by
  intro step member
  obtain ⟨child, listed, rfl⟩ := List.mem_map.1 member
  exact .visit (List.mem_of_mem_filter listed) (leaves child)

theorem defineSelf {d : Definition} (callable : n.construct.isCallable = true)
    (notMethod : n.construct ≠ .method) :
    ClassStep source parent n (.define (Spot.self n) d false) := by
  refine .function callable notMethod (Nat.zero_le 1) fun isField => ?_
  rw [isField] at callable
  cases callable

theorem defineChild {child : Part n} (member : child ∈ n.parts)
    (callable : child.construct.isCallable = true) (notMethod : child.construct ≠ .method)
    (notField : n.construct ≠ .field) (d : Definition) :
    ClassStep source parent n (.define child.toSpot d false) := by
  obtain ⟨position, placed⟩ := Node.exists_place_of_mem member
  exact .function callable notMethod (by rw [placed]; simp) notField

theorem definePart {field : String} {value : Part n} (found : n.part? field = some value)
    (isValue : value.construct.isFunctionValue = true) (notField : n.construct ≠ .field)
    (d : Definition) : ClassStep source parent n (.define value.toSpot d false) :=
  defineChild (Node.mem_parts_of_part? found) (Construct.isCallable_of_isFunctionValue isValue)
    (Construct.ne_method_of_isFunctionValue isValue) notField d

theorem ofFunctionDeclaration (isFunction : n.construct = .functionDeclaration) :
    ClassStep source parent n (Plan.functionDeclaration source n) := by
  obtain ⟨d, same⟩ := View.exists_functionDeclaration source n
  rw [same]
  exact defineSelf (by rw [isFunction]; rfl) (by rw [isFunction]; decide)

theorem ofFunctionValue (isValue : n.construct.isFunctionValue = true) :
    ∀ step ∈ Plan.functionValue source inside n, ClassStep source parent n step := by
  have callable := Construct.isCallable_of_isFunctionValue isValue
  rw [Plan.functionValue]
  split
  · exact lookThrough fun _ => .of_keeps (Construct.keeps_of_isCallable callable)
  · obtain ⟨d, same⟩ := View.exists_freeFunction source n
    rw [same, List.forall_mem_singleton]
    exact defineSelf callable (Construct.ne_method_of_isFunctionValue isValue)

theorem ofMethod (isMethod : n.construct = .method) :
    ∀ step ∈ Plan.method source parent n, ClassStep source parent n step := by
  rw [Plan.method]
  split
  next isName =>
    rw [List.forall_mem_singleton]
    exact .method isMethod isName
  next => exact List.forall_mem_nil _

theorem ofField (isField : n.construct = .field) :
    ∀ step ∈ Plan.field source n, ClassStep source parent n step := by
  have leaves : View.fieldIsMethod n = false →
      ∀ child : Part n, Leaves source n child.place child.node := fun notMethod child =>
    ⟨by rw [isField]; decide, fun _ => givenName?_eq_none (by rw [isField]; decide),
      fun _ => notMethod⟩
  rw [Plan.field]
  split
  next name value isName isValue =>
    split
    next isFunction =>
      rw [List.forall_mem_singleton]
      exact .field isField isName isValue isFunction
    next notFunction =>
      exact lookThrough (leaves (by simp [View.fieldIsMethod, isValue, notFunction]))
  next unlike =>
    refine lookThrough (leaves ?_)
    simp only [View.fieldIsMethod]
    cases isName : (n.part? "property").or (n.part? "name") with
    | none => rfl
    | some name =>
      cases isValue : n.part? "value" with
      | none => rfl
      | some value => exact (unlike name value isName isValue).elim

theorem ofPair (isPair : n.construct = .pair) :
    ∀ step ∈ Plan.pair source n, ClassStep source parent n step := by
  rw [Plan.pair]
  split
  next found =>
    split
    next isValue =>
      rw [List.forall_mem_singleton]
      exact definePart found isValue (by rw [isPair]; decide) _
    next =>
      rw [List.forall_mem_singleton]
      exact .visit (Node.mem_parts_of_part? found) (.of_keeps (by rw [isPair]; rfl))
  next => exact List.forall_mem_nil _

theorem ofDeclarator (isDeclarator : n.construct = .declarator) :
    ∀ step ∈ Plan.declarator source n, ClassStep source parent n step := by
  rw [Plan.declarator]
  split
  next name value isName isValue =>
    split
    · exact of_quiet (View.quiet_of_binds (binds_requirement _ _))
    · split
      next isFunction =>
        obtain ⟨-, isFunction⟩ := Bool.and_eq_true_iff.1 isFunction
        rw [List.forall_mem_singleton]
        exact definePart isValue isFunction (by rw [isDeclarator]; decide) _
      next =>
        split
        next isClass =>
          obtain ⟨identifier, isClass⟩ := Bool.and_eq_true_iff.1 isClass
          rw [List.forall_mem_singleton]
          exact .enterValue isDeclarator isName (of_decide_eq_true identifier) isValue
            (of_decide_eq_true isClass)
        next notClass =>
          rw [List.forall_mem_singleton]
          refine .visit (Node.mem_parts_of_part? isValue)
            ⟨by rw [isDeclarator]; decide, fun isClass => ?_, fun isField => ?_⟩
          · -- A class is left to the walk only by a declarator whose name is a pattern.
            have pattern : name.kind ≠ "identifier" := fun identifier =>
              notClass (by simp [identifier, Part.construct, isClass])
            simp [givenName?, isName, isValue, pattern]
          · rw [isDeclarator] at isField
            cases isField
  next => exact List.forall_mem_nil _

theorem ofAssignment (isAssignment : n.construct = .assignment) :
    ∀ step ∈ Plan.assignment source n, ClassStep source parent n step := by
  have notField : n.construct ≠ .field := by rw [isAssignment]; decide
  have through : ∀ step ∈ Plan.lookThrough n, ClassStep source parent n step :=
    lookThrough fun _ => .of_keeps (by rw [isAssignment]; rfl)
  rw [Plan.assignment]
  split
  next found =>
    dsimp only
    split
    · exact of_quiet (by simp [Step.Quiet])
    · split
      next isValue =>
        split
        · rw [List.forall_mem_cons]
          exact ⟨definePart found isValue notField _, of_quiet (by simp [Step.Quiet])⟩
        · split
          · rw [List.forall_mem_singleton]
            exact definePart found isValue notField _
          · exact through
      next => exact through
  next => exact List.forall_mem_nil _

theorem ofExported (isExport : n.construct = .exportStatement) (isDefault : Bool) {child : Part n}
    (member : child ∈ n.parts) :
    ∀ step ∈ Plan.exported source isDefault child, ClassStep source parent n step := by
  have notField : n.construct ≠ .field := by rw [isExport]; decide
  rw [Plan.exported]
  split
  next declaration =>
    obtain ⟨d, same⟩ := View.exists_functionDeclaration source child.node
    rw [List.forall_mem_cons, same, Step.within, Spot.within_self]
    have notMethod : child.construct ≠ .method := by rw [declaration]; decide
    refine ⟨defineChild member (by rw [declaration]; rfl) notMethod notField d, ?_⟩
    split
    · split <;> exact of_quiet (by simp [Step.Quiet])
    · exact List.forall_mem_nil _
  next =>
    split
    next isFunction =>
      obtain ⟨-, isValue⟩ := Bool.and_eq_true_iff.1 isFunction
      rw [List.forall_mem_cons, Plan.defineSelf, Step.within, Spot.within_self]
      refine ⟨?_, of_quiet (by simp [Step.Quiet])⟩
      exact defineChild member (Construct.isCallable_of_isFunctionValue isValue)
        (Construct.ne_method_of_isFunctionValue isValue) notField _
    next =>
      split
      · exact of_quiet (by simp [Step.Quiet])
      · rw [List.forall_mem_singleton]
        exact .visit member (.of_keeps (by rw [isExport]; rfl))

theorem ofExportStatement (isExport : n.construct = .exportStatement) :
    ∀ step ∈ Plan.exportStatement source n, ClassStep source parent n step := by
  intro step member
  obtain ⟨child, listed, among⟩ := List.mem_flatMap.1 member
  exact ofExported isExport _ (List.mem_of_mem_filter listed) step among

theorem ofImportStatement :
    ∀ step ∈ Plan.importStatement source n, ClassStep source parent n step := by
  rw [Plan.importStatement]
  split
  · refine of_quiet (View.quiet_of_binds fun step member => ?_)
    obtain ⟨part, -, member⟩ := List.mem_flatMap.1 member
    exact binds_importPart _ part step member
  · exact List.forall_mem_nil _

theorem cons_lookThrough {step : Step n} (quiet : step.Quiet)
    (keepsNone : n.construct.keeps = false) :
    ∀ later ∈ step :: Plan.lookThrough n, ClassStep source parent n later :=
  List.forall_mem_cons.2 ⟨.quiet quiet, lookThrough fun _ => .of_keeps keepsNone⟩

end ClassStep

open ClassStep in
theorem plan_classStep (source : SourceText) (parent : String) (inside : Bool) (n : Node) :
    ∀ step ∈ plan source parent inside n, ClassStep source parent n step := by
  rw [plan]
  split
  next isFunction =>
    rw [List.forall_mem_singleton]
    exact ofFunctionDeclaration isFunction
  next isValue => exact ofFunctionValue (by rw [isValue]; rfl)
  next isValue => exact ofFunctionValue (by rw [isValue]; rfl)
  next isMethod => exact ofMethod isMethod
  next isClass =>
    rw [List.forall_mem_singleton]
    exact .enter isClass
  next isDeclarator => exact ofDeclarator isDeclarator
  next isAssignment => exact ofAssignment isAssignment
  next isPair => exact ofPair isPair
  next isField => exact ofField isField
  next isExport => exact ofExportStatement isExport
  · exact ofImportStatement
  next isCall =>
    rw [call]
    split
    · exact cons_lookThrough trivial (by rw [isCall]; rfl)
    · exact lookThrough fun _ => .of_keeps (by rw [isCall]; rfl)
  -- The eight constructs that always decide.
  iterate 8
    next decides => exact cons_lookThrough trivial (by rw [decides]; rfl)
  next isBinary =>
    have keepsNone : n.construct.keeps = false := by rw [isBinary]; rfl
    rw [binary]
    split
    · split
      · exact cons_lookThrough trivial keepsNone
      · exact lookThrough fun _ => .of_keeps keepsNone
    · exact lookThrough fun _ => .of_keeps keepsNone
  next isOther => exact lookThrough fun _ => .of_keeps (by rw [isOther]; rfl)

end Steps

/-! ## The nodes that a walk comes to -/

/-- What surrounds a node that a walk comes to fits its place.  The node is left to the walk, and
    directly in a class body the innermost class is the one with that body. -/
inductive Situated (source : SourceText) (root : Node) : List Nat → Node → Surroundings → Prop where
  | child {holder : Node} {outer : List Nat} {part : Part holder} {around : Surroundings} :
      root.at? outer = some holder → part ∈ holder.parts →
      Leaves source holder part.place part.node → around.parent = holder.kind →
      (holder.kind = "class_body" →
        around.classes.head? = some (className source root outer.dropLast)) →
      Situated source root (outer ++ part.place) part.node around

section Situated

variable {source : SourceText} {root n : Node} {place : List Nat} {around : Surroundings}

namespace Situated

theorem found (situated : Situated source root place n around) : root.at? place = some n := by
  cases situated with
  | child found _ _ _ _ => exact at?_part found _

theorem exists_class (situated : Situated source root place n around)
    (inBody : around.parent = "class_body") : ∃ outer, classAround? root place = some outer ∧
      around.classes.head? = some (className source root outer) := by
  cases situated with
  | @child holder outer part _ found member _ parent classes =>
    have isBody : holder.kind = "class_body" := parent.symm.trans inBody
    refine ⟨outer.dropLast, ?_, classes isBody⟩
    rw [classAround?, Node.dropLast_append_place member, found]
    exact if_pos (decide_eq_true isBody)

theorem classAround?_eq_none (situated : Situated source root place n around)
    (notInBody : around.parent ≠ "class_body") : classAround? root place = none := by
  cases situated with
  | @child holder outer part _ found member _ parent classes =>
    rw [classAround?, Node.dropLast_append_place member, found]
    refine if_neg fun isBody => notInBody ?_
    exact parent.trans (of_decide_eq_true isBody)

theorem not_fieldIsMethod (situated : Situated source root place n around) {holder : Node}
    (above : root.at? place.dropLast = some holder) (isField : holder.construct = .field) :
    View.fieldIsMethod holder = false := by
  cases situated with
  | child found member leaves _ _ =>
    rw [Node.dropLast_append_place member, found] at above
    obtain rfl := Option.some.inj above
    exact leaves.notMethod isField

/-- A class that is left to the walk has no name but its own. -/
theorem className_eq (situated : Situated source root place n around)
    (isClass : n.construct = .classDefinition) :
    className source root place
      = (((n.part? "name").map (Plan.partText source)).or none).getD "<class>" := by
  have found := situated.found
  cases situated with
  | child above member leaves _ _ =>
    simp only [className, found, Node.dropLast_append_place member,
      Node.getLast?_append_place member, above, Option.bind_some, leaves.unnamed isClass]

end Situated

/-- A class that a declarator gives a name to keeps a name of its own. -/
theorem className_of_declarator (found : root.at? place = some n)
    (isDeclarator : n.construct = .declarator) {name value : Part n}
    (isName : n.part? "name" = some name) (identifier : name.kind = "identifier")
    (isValue : n.part? "value" = some value) :
    className source root (place ++ value.place)
      = (((value.node.part? "name").map (Plan.partText source)).or
          (some (Plan.partText source name))).getD "<class>" := by
  have member := Node.mem_parts_of_part? isValue
  simp only [className, at?_part found value.toSpot, Node.dropLast_append_place member,
    Node.getLast?_append_place member, found, Option.bind_some, givenName?, isName, isValue,
    isDeclarator, identifier, and_self, if_true]

/-! ### Own definitions -/

/-- A method is owned by the innermost class if a class body holds it, and not at all otherwise. -/
theorem ownedExactly_method (situated : Situated source root place n around) {d : Definition}
    (named : (n.part? "name").map (Plan.partText source) = some d.name)
    (owner : d.owner = if around.parent = "class_body" then around.classes.head? else none) :
    OwnedExactly source root d place := by
  constructor
  · intro m found _
    obtain rfl := Option.some.inj (situated.found.symm.trans found)
    refine ⟨named, ?_⟩
    rw [owner]
    split
    next inBody =>
      obtain ⟨outer, isAround, innermost⟩ := situated.exists_class inBody
      rw [isAround, innermost, Option.map_some]
    next outside => rw [situated.classAround?_eq_none outside, Option.map_none]
  · intro holder above isField isMethod _
    rw [situated.not_fieldIsMethod above isField] at isMethod
    cases isMethod

theorem ownedExactly_function (situated : Situated source root place n around) {callable : Spot n}
    (notMethod : callable.node.construct ≠ .method) (short : callable.place.length ≤ 1)
    (notField : n.construct ≠ .field) (d : Definition) :
    OwnedExactly source root d (place ++ callable.place) := by
  constructor
  · intro m found isMethod
    obtain rfl := Option.some.inj ((at?_part situated.found callable).symm.trans found)
    exact absurd isMethod notMethod
  · intro holder above isField isMethod _
    -- The function is the node itself, which is left to the walk, or a child of it.
    cases atPlace : callable.place with
    | nil =>
      rw [atPlace, List.append_nil] at above
      rw [situated.not_fieldIsMethod above isField] at isMethod
      cases isMethod
    | cons position rest =>
      obtain rfl : rest = [] := by
        rw [atPlace, List.length_cons] at short
        exact List.eq_nil_of_length_eq_zero (by omega)
      rw [atPlace, List.dropLast_concat, situated.found] at above
      obtain rfl := Option.some.inj above
      exact absurd isField notField

variable (inPlace : root.ClassesInPlace)
include inPlace

/-- A field that is a method is owned by the innermost class, since a class body holds it. -/
theorem ownedExactly_field (situated : Situated source root place n around)
    (isField : n.construct = .field) {value : Part n} (isValue : n.part? "value" = some value)
    (isFunction : value.construct.isFunctionValue = true) {d : Definition}
    (named : ((n.part? "property").or (n.part? "name")).map (Plan.partText source) = some d.name)
    (owner : d.owner = around.classes.head?) :
    OwnedExactly source root d (place ++ value.place) := by
  have inBody : around.parent = "class_body" := by
    cases situated with
    | child found member _ parent _ =>
      rw [parent]
      exact (inPlace.below _ _ found _ (Node.mem_children_of_mem_parts member)).2 isField
  constructor
  · intro m found isMethod
    obtain rfl := Option.some.inj ((at?_part situated.found value.toSpot).symm.trans found)
    exact absurd isMethod (Construct.ne_method_of_isFunctionValue isFunction)
  · intro holder above _ _ _
    rw [Node.dropLast_append_place (Node.mem_parts_of_part? isValue)] at above ⊢
    obtain rfl := Option.some.inj (situated.found.symm.trans above)
    rw [owner]
    exact ⟨named, situated.exists_class inBody⟩

theorem ownedExactly_of_mem_own {step : Step n} (classStep : ClassStep source around.parent n step)
    (situated : Situated source root place n around) {here : List Nat} {d : Definition}
    (own : .define here d ∈ step.own around place) : OwnedExactly source root d here := by
  cases classStep with
  | quiet quiet =>
    cases step with
    | visit | define | enter => cases quiet
    | call | branch => cases List.mem_singleton.1 own
    | bind | exportDefault => cases own
  | visit | enter | enterValue => cases own
  | method _ isName =>
    obtain ⟨rfl, rfl⟩ := Event.define.inj (List.mem_singleton.1 own)
    rw [Spot.self, List.append_nil]
    refine ownedExactly_method situated ?_ ?_
    · rw [isName]
      split <;> rfl
    · simp only [decide_eq_true_eq]
      split <;> rfl
  | field isField isName isValue isFunction =>
    obtain ⟨rfl, rfl⟩ := Event.define.inj (List.mem_singleton.1 own)
    exact ownedExactly_field inPlace situated isField isValue isFunction (by rw [isName]; rfl) rfl
  | function _ notMethod short notField =>
    obtain ⟨rfl, rfl⟩ := Event.define.inj (List.mem_singleton.1 own)
    exact ownedExactly_function situated notMethod short notField _

/-! ### Where steps lead -/

variable (listed : root.Listed)
include listed

theorem situated_item (found : root.at? place = some n) {field : String} {list part : Part n}
    (filled : n.part? field = some list)
    (isList : (n.construct.isCallable = true ∧ field = "parameters") ∨
      (n.construct = .classDefinition ∧ field = "body"))
    (member : part ∈ list.namedParts) (parent : around.parent = part.parent)
    (classes : list.kind = "class_body" →
      around.classes.head? = some (className source root place)) :
    Situated source root (place ++ part.place) part.node around := by
  have isPart := Node.mem_parts_of_part? filled
  have isChild := Node.mem_children_of_mem_parts isPart
  have keepsNone : list.construct.keeps = false := by
    have fills : list.node.field = field := by simpa using List.find?_some filled
    obtain ⟨notClass, notDeclarator⟩ :=
      listed.below place n found list.node isChild (fills ▸ isList)
    refine Construct.keeps_eq_false_iff.2 ⟨notClass, notDeclarator, fun isField => ?_⟩
    -- A field would be held by a class body, which is neither a function nor a class.
    have isBody := (inPlace.below place n found list.node isChild).2 isField
    rw [Node.construct_of_kind_eq isBody] at isList
    rcases isList with ⟨callable, -⟩ | ⟨isClass, -⟩
    · cases callable
    · cases isClass
  obtain ⟨item, isItem, rfl⟩ := List.mem_map.1 member
  have isItem := List.mem_of_mem_filter isItem
  have situated : Situated source root (place ++ list.place ++ item.place) item.node around := by
    refine .child (at?_part found list.toSpot) isItem (.of_keeps keepsNone)
      (parent.trans (Node.parent_of_mem_parts isItem)) fun isBody => ?_
    rw [Node.dropLast_append_place isPart]
    exact classes isBody
  rwa [List.append_assoc] at situated

theorem situated_member (found : root.at? place = some n) (isClass : n.construct = .classDefinition)
    {part : Part n} (member : part ∈ View.memberParts n) (parent : around.parent = part.parent)
    (entered : around.classes.head? = some (className source root place)) :
    Situated source root (place ++ part.place) part.node around := by
  cases isBody : n.part? "body" with
  | none => simp [View.memberParts, isBody] at member
  | some body =>
    simp only [View.memberParts, isBody, Option.map_some, Option.getD_some] at member
    exact situated_item inPlace listed found isBody (.inr ⟨isClass, rfl⟩) member parent
      fun _ => entered

theorem situated_body (found : root.at? place = some n) (callable : n.construct.isCallable = true)
    {part : Part n} (member : part ∈ Plan.body n) (parent : around.parent = part.parent) :
    Situated source root (place ++ part.place) part.node around := by
  rcases List.mem_append.1 member with inParameters | isBody
  · cases isParameters : n.part? "parameters" with
    | none => simp [isParameters] at inParameters
    | some parameters =>
      simp only [isParameters, Option.map_some, Option.getD_some] at inParameters
      refine situated_item inPlace listed found isParameters (.inl ⟨callable, rfl⟩) inParameters
        parent fun isBody => ?_
      have isChild := Node.mem_children_of_mem_parts (Node.mem_parts_of_part? isParameters)
      rw [(inPlace.below place n found parameters.node isChild).1 isBody] at callable
      cases callable
  · have isPart := Node.mem_parts_of_part? (Option.mem_toList.1 isBody)
    refine .child found isPart (.of_keeps (Construct.keeps_of_isCallable callable))
      (parent.trans (Node.parent_of_mem_parts isPart)) fun isBody => ?_
    rw [Node.construct_of_kind_eq isBody] at callable
    cases callable

/-- A step leads from a node that fits its place to others that do. -/
theorem situated_outlook {step : Step n} (classStep : ClassStep source around.parent n step)
    (situated : Situated source root place n around) {target : Spot n × Surroundings}
    (among : target ∈ step.outlook around place) :
    Situated source root (place ++ target.1.place) target.1.node target.2 := by
  have found := situated.found
  -- Functions are looked into alike, whichever step defines them.
  have define : ∀ (callable : Spot n) (d : Definition) (isMember : Bool),
      callable.node.construct.isCallable = true →
      target ∈ (Step.define callable d isMember).outlook around place →
      Situated source root (place ++ target.1.place) target.1.node target.2 := by
    intro callable d isMember isCallable among
    obtain ⟨part, member, rfl⟩ := List.mem_map.1 among
    change Situated source root (place ++ (callable.place ++ part.place)) part.node _
    rw [← List.append_assoc]
    exact situated_body inPlace listed (at?_part found callable) isCallable member rfl
  cases classStep with
  | quiet quiet => exact (View.Renders.not_mem_outlook quiet among).elim
  | visit member leaves =>
    obtain rfl := List.mem_singleton.1 among
    refine .child found member leaves (Node.parent_of_mem_parts member) fun isBody => ?_
    -- A class body is held by a class, which leaves nothing to the walk.
    cases situated with
    | child above isPart held _ _ =>
      have inClass := (inPlace.below _ _ above _ (Node.mem_children_of_mem_parts isPart)).1 isBody
      exact absurd inClass held.notClass
  | method isMethod => exact define _ _ _ (by rw [Spot.self, isMethod]; rfl) among
  | field _ _ _ isValue =>
    exact define _ _ _ (Construct.isCallable_of_isFunctionValue isValue) among
  | function isCallable => exact define _ _ _ isCallable among
  | enter isClass =>
    obtain ⟨part, member, rfl⟩ := List.mem_map.1 among
    refine situated_member inPlace listed found isClass member rfl ?_
    rw [situated.className_eq isClass]
    rfl
  | @enterValue name value isDeclarator isName identifier isValue isClass =>
    obtain ⟨part, member, rfl⟩ := List.mem_map.1 among
    obtain ⟨inner, isInner, rfl⟩ := List.mem_map.1 member
    change Situated source root (place ++ (value.place ++ inner.place)) inner.node _
    rw [← List.append_assoc]
    refine situated_member inPlace listed (at?_part found value.toSpot) isClass isInner rfl ?_
    rw [className_of_declarator found isDeclarator isName identifier isValue]
    rfl

theorem situated_top {part : Part root} (member : part ∈ root.namedParts) :
    Situated source root part.place part.node ⟨part.parent, none, []⟩ := by
  have isPart := List.mem_of_mem_filter member
  have keepsNone : root.construct.keeps = false :=
    Construct.keeps_eq_false_iff.2 ⟨listed.top.1, listed.top.2, inPlace.top.2⟩
  have situated : Situated source root ([] ++ part.place) part.node ⟨part.parent, none, []⟩ :=
    .child rfl isPart (.of_keeps keepsNone) (Node.parent_of_mem_parts isPart)
      fun isBody => absurd isBody inPlace.top.1
  exact situated

theorem ownedExactly_eventsOfTree {d : Definition}
    (defined : .define place d ∈ eventsOfTree source root) : OwnedExactly source root d place := by
  have own : ∀ place n around, Situated source root place n around →
      ∀ step ∈ plan source around.parent around.owner.isSome n, ∀ e ∈ step.own around place,
        ∀ here d, e = .define here d → OwnedExactly source root d here := by
    rintro place n around situated step isStep e own here d rfl
    exact ownedExactly_of_mem_own inPlace (plan_classStep _ _ _ _ step isStep) situated own
  obtain ⟨part, member, below⟩ := List.mem_flatMap.1 defined
  refine forall_mem_events_of own ?_ (situated_top inPlace listed member) _ below place d rfl
  intro place n around situated step isStep target among
  exact situated_outlook inPlace listed (plan_classStep _ _ _ _ step isStep) situated among

omit listed in
theorem exists_class_of_classAround? {outer : List Nat}
    (isAround : classAround? root place = some outer) :
    ∃ n, root.at? outer = some n ∧ n.construct = .classDefinition := by
  rw [classAround?] at isAround
  split at isAround
  next inBody =>
    obtain rfl := Option.some.inj isAround
    obtain ⟨body, found, isBody⟩ := (Option.any_eq_true _ _).1 inBody
    have isBody : body.kind = "class_body" := of_decide_eq_true isBody
    have proper : place.dropLast ≠ [] := by
      intro atRoot
      rw [atRoot] at found
      obtain rfl := Option.some.inj found
      exact inPlace.top.1 isBody
    obtain ⟨holder, above, isChild⟩ := Node.exists_holder found proper
    exact ⟨holder, above, (inPlace.below _ _ above body isChild).1 isBody⟩
  next => cases isAround

end Situated

/-- Every visit leaves the stack of classes as it found it, and so does every series of steps.  A
    method or a function that is a field, directly in the body of a class, has that class as its
    owner: under its own name, or else the name that a declarator gives it, or else `<class>`.
    However classes, functions and objects are nested, a method elsewhere has no owner. -/
theorem Outline.ofTree_owners_are_exact (file : String) (source : SourceText) (root : Node)
    (listed : root.Listed) (inPlace : root.ClassesInPlace) :
    (∀ (w : Walk) (current : Option Nat) (n : Node),
      (∀ parent, (w.visit source parent current n).classes = w.classes) ∧
      ∀ steps : List (Step n), (steps.foldl (Walk.perform source current) w).classes = w.classes) ∧
    (∀ place outer, classAround? root place = some outer →
      ∃ n, root.at? outer = some n ∧ n.construct = .classDefinition) ∧
    List.Forall₂ (OwnedExactly source root) (Outline.ofTree file source root).definitions
      (functionPlaces source root) := by
  refine ⟨fun w current n => ⟨fun parent => Walk.classes_visit parent current w, fun steps => ?_⟩,
    fun place outer isAround => exists_class_of_classAround? inPlace isAround, ?_⟩
  · exact Walk.classes_foldl (fun step _ later => Walk.classes_perform current step later) w
  · refine forall₂_places (agrees_ofTree file source root).definitions fun d e member records => ?_
    have defined := List.mem_of_mem_filter member
    cases e with
    | define place plain =>
      obtain ⟨same, -⟩ := records
      have owned := ownedExactly_eventsOfTree inPlace listed defined
      rw [same]
      exact ⟨owned.method, owned.field⟩
    | call => cases records
    | branch => cases records

namespace ClassOwners.Sample

open CallCoverage.Sample (leaf)

/-- A method of a class.  It gives a name to another class and returns an object with a method. -/
def source : SourceText := .ofString
  ("class A \x7b m() \x7b const B = class \x7b n = () => 1; \x7d; " ++
    "return \x7b k() \x7b\x7d \x7d; \x7d \x7d\n")

def field : Node := ⟨"field_definition", true, "", 34, 45,
  [leaf "property_identifier" "property" 34 35,
    ⟨"arrow_function", true, "value", 38, 45,
      [leaf "formal_parameters" "parameters" 38 40, leaf "number" "body" 44 45]⟩]⟩

def declaration : Node := ⟨"lexical_declaration", true, "", 16, 49,
  [⟨"variable_declarator", true, "", 22, 48,
    [leaf "identifier" "name" 22 23,
      ⟨"class", true, "value", 26, 48, [⟨"class_body", true, "body", 32, 48, [field]⟩]⟩]⟩]⟩

def object : Node := ⟨"object", true, "", 57, 67,
  [⟨"method_definition", true, "", 59, 65,
    [leaf "property_identifier" "name" 59 60, leaf "formal_parameters" "parameters" 60 62,
      leaf "statement_block" "body" 63 65]⟩]⟩

def method : Node := ⟨"method_definition", true, "", 10, 70,
  [leaf "property_identifier" "name" 10 11, leaf "formal_parameters" "parameters" 11 13,
    ⟨"statement_block", true, "body", 14, 70,
      [declaration, ⟨"return_statement", true, "", 50, 68, [object]⟩]⟩]⟩

def tree : Node := ⟨"program", true, "", 0, 73,
  [⟨"class_declaration", true, "", 0, 72,
    [leaf "identifier" "name" 6 7, ⟨"class_body", true, "body", 8, 72, [method]⟩]⟩]⟩

def recorded : List Definition :=
  [ { Definition.spanning "m" .method 1 1 with owner := some "A" },
    { Definition.spanning "n" .method 1 1 with owner := some "B" },
    Definition.spanning "k" .method 1 1 ]

theorem outline_tree :
    (Outline.ofTree "a.js" source tree).definitions = recorded ∧
      functionPlaces source tree
        = [[0, 1, 0], [0, 1, 0, 2, 0, 0, 1, 0, 0, 1], [0, 1, 0, 2, 1, 0, 0]] := by
  decide +kernel

theorem listed : tree.Listed := ⟨by decide +kernel, by decide +kernel⟩

theorem inPlace : tree.ClassesInPlace := ⟨by decide +kernel, by decide +kernel⟩

end ClassOwners.Sample

open ClassOwners.Sample in
theorem Outline.ofTree_owners_are_exact_nested :
    (tree.Listed ∧ tree.ClassesInPlace) ∧
    (Outline.ofTree "a.js" source tree).definitions.map (fun d => (d.name, d.owner))
      = [("m", some "A"), ("n", some "B"), ("k", none)] ∧
    some "A" = (classAround? tree [0, 1, 0]).map (className source tree) ∧
    (∃ outer, classAround? tree [0, 1, 0, 2, 0, 0, 1, 0, 0] = some outer ∧
      some "B" = some (className source tree outer)) ∧
    none = (classAround? tree [0, 1, 0, 2, 1, 0, 0]).map (className source tree) := by
  obtain ⟨isOutline, functions⟩ := outline_tree
  obtain ⟨-, -, owned⟩ := Outline.ofTree_owners_are_exact "a.js" source tree listed inPlace
  rw [isOutline, functions] at owned
  simp only [recorded, List.forall₂_cons] at owned
  obtain ⟨outer, inner, key, -⟩ := owned
  refine ⟨⟨listed, inPlace⟩, by rw [isOutline]; rfl, ?_, ?_, ?_⟩
  · exact (outer.method _ rfl (by decide)).2
  · exact (inner.field field rfl (by decide) (by decide +kernel) (by decide +kernel)).2
  · exact (key.method _ rfl (by decide)).2

namespace ClassOwners.Sample

open CallCoverage.Sample (leaf)

/-- Names to be read by trees of other shapes than the grammar gives. -/
def names : SourceText := .ofString "A B m\n"

def body : Node := ⟨"class_body", true, "body", 0, 5,
  [⟨"method_definition", true, "", 0, 5, [leaf "property_identifier" "name" 4 5]⟩]⟩

def ownNamed (fills : String) : Node :=
  ⟨"class", true, fills, 0, 5, [leaf "identifier" "name" 2 3, body]⟩

def givenNamed (fills : String) : Node :=
  ⟨"variable_declarator", true, fills, 0, 5,
    [leaf "identifier" "name" 2 3, ⟨"class", true, "value", 0, 5, [body]⟩]⟩

/-- A class `B`, or a declarator that calls it so, where a list should be. -/
def unlisted : List Node :=
  [ownNamed, givenNamed].flatMap fun misplaced =>
    [misplaced "",
      ⟨"program", true, "", 0, 5,
        [⟨"class", true, "", 0, 5, [leaf "identifier" "name" 0 1, misplaced "body"]⟩]⟩,
      ⟨"program", true, "", 0, 5,
        [⟨"function_declaration", true, "", 0, 5,
          [leaf "identifier" "name" 0 1, misplaced "parameters"]⟩]⟩]

/-- A class in brackets is not the value of the declarator. -/
def bracketed : SourceText := .ofString "const A = (class \x7b m() \x7b\x7d \x7d);\n"

def bracketedTree : Node := ⟨"program", true, "", 0, 30,
  [⟨"lexical_declaration", true, "", 0, 29,
    [⟨"const", false, "kind", 0, 5, []⟩, ⟨"variable_declarator", true, "", 6, 28,
      [leaf "identifier" "name" 6 7,
        ⟨"parenthesized_expression", true, "value", 10, 28,
          [⟨"class", true, "", 11, 27,
            [⟨"class_body", true, "body", 17, 27,
              [⟨"method_definition", true, "member", 19, 25,
                [leaf "property_identifier" "name" 19 20,
                  leaf "formal_parameters" "parameters" 20 22,
                  leaf "statement_block" "body" 23 25]⟩]⟩]⟩]⟩]⟩]⟩]⟩

end ClassOwners.Sample

open ClassOwners.Sample in
/-- Class bodies and fields can be in place and a method still not have the class around it as its
    owner: where a class or a declarator stands in place of a list, and where there are brackets
    between a class and the declarator. -/
theorem Outline.ofTree_owners_astray :
    (∀ tree ∈ unlisted, tree.ClassesInPlace ∧
      ∃ entry ∈ (Outline.ofTree "a.js" names tree).definitions.zip (functionPlaces names tree),
        (classAround? tree entry.2).map (className names tree) = some "B" ∧
        entry.1.owner ≠ some "B") ∧
    (bracketedTree.Listed ∧ bracketedTree.ClassesInPlace) ∧
    (bracketedTree.at? [0, 1, 0]).map (Plan.text bracketed) = some "A" ∧
    (Outline.ofTree "a.js" bracketed bracketedTree).definitions.map Definition.owner
      = [some "<class>"] := by
  refine ⟨?_, ⟨⟨by decide +kernel, by decide +kernel⟩, by decide +kernel, by decide +kernel⟩,
    by decide +kernel, by decide +kernel⟩
  have inPlace : (∀ tree ∈ unlisted, tree.kind ≠ "class_body" ∧ tree.construct ≠ .field) ∧
      ∀ tree ∈ unlisted, tree.Everywhere Node.HoldsClassParts := by decide +kernel
  have astray : ∀ tree ∈ unlisted,
      ∃ entry ∈ (Outline.ofTree "a.js" names tree).definitions.zip (functionPlaces names tree),
        (classAround? tree entry.2).map (className names tree) = some "B" ∧
        entry.1.owner ≠ some "B" := by decide +kernel
  exact fun tree member => ⟨⟨inPlace.1 tree member, inPlace.2 tree member⟩, astray tree member⟩

end LoadBearing
