import LoadBearing.Proofs.CallCoverage

/-! # The course of a plan

A plan goes through its node from left to right.  It takes some children one after the other, or it
defines one function, or it looks at the members of a class.  A function that is defined begins where
its node begins, or the node that holds it.  `plan_course` says this once for all constructs.
-/

namespace LoadBearing

/-- Whether it is a function, be it a declaration, a value or a method. -/
def Construct.isCallable : Construct → Bool
  | .functionDeclaration | .functionExpression | .arrowFunction | .method => true
  | _ => false

theorem Construct.isCallable_of_isFunctionValue {construct : Construct}
    (isValue : construct.isFunctionValue = true) : construct.isCallable = true := by
  cases construct <;> first | rfl | cases isValue

/-- What is done about a child, if anything: it is looked at, or it is a function that begins where
    the child begins. -/
inductive Contribution (source : SourceText) {n : Node} (child : Part n) : List (Step n) → Prop where
  | quiet {steps : List (Step n)} : (∀ step ∈ steps, step.Quiet) →
      Contribution source child steps
  | visit : Contribution source child [.visit child]
  | define {d : Definition} {isMember : Bool} {later : List (Step n)} :
      child.node.construct.isCallable = true → d.line = source.lineAt child.node.start →
      (∀ step ∈ later, step.Quiet) →
      Contribution source child (.define child.toSpot d isMember :: later)

/-- The ways that a plan can go. -/
inductive Course (source : SourceText) (n : Node) : List (Step n) → Prop where
  | children {before : List (Step n)} {seen : List (Part n)}
      {contribution : Part n → List (Step n)} : (∀ step ∈ before, step.Quiet) →
      seen.Sublist n.parts → (∀ child ∈ seen, Contribution source child (contribution child)) →
      Course source n (before ++ seen.flatMap contribution)
  /-- a function, which is the node itself or a child and begins where the node begins -/
  | define {callable : Spot n} {d : Definition} {isMember : Bool} {later : List (Step n)} :
      callable.node.construct.isCallable = true → callable.place.length ≤ 1 →
      d.line = source.lineAt n.start → (∀ step ∈ later, step.Quiet) →
      Course source n (.define callable d isMember :: later)
  | enter {name : String} {body? : Option (Part n)} :
      Course source n [.enter name ((body?.map Part.namedParts).getD [])]

theorem Spot.within_self {n : Node} (child : Part n) :
    (Spot.self child.node).within child = child.toSpot := by
  obtain ⟨⟨node, place, found⟩, parent, proper⟩ := child
  simp [Spot.within, Spot.self]

theorem Part.map_within_namedParts {n : Node} (outer : Part n) (inner : Part outer.node) :
    inner.namedParts.map outer.within = (outer.within inner).namedParts := by
  rw [Part.namedParts, Part.namedParts, List.map_map]
  refine List.map_congr_left fun part _ => ?_
  simp [Part.within, Spot.within, List.append_assoc]

namespace Plan

variable {source : SourceText} {n : Node}

theorem course_quiet {steps : List (Step n)} (quiet : ∀ step ∈ steps, step.Quiet) :
    Course source n steps := by
  have course : Course source n (steps ++ ([] : List (Part n)).flatMap fun _ => []) :=
    .children quiet (List.nil_sublist _) fun _ member => (nomatch member)
  rwa [List.flatMap_nil, List.append_nil] at course

theorem course_lookThrough (before : List (Step n)) (quiet : ∀ step ∈ before, step.Quiet) :
    Course source n (before ++ lookThrough n) := by
  rw [lookThrough, List.map_eq_flatMap]
  exact .children quiet List.filter_sublist fun child _ => .visit

theorem course_through : Course source n (lookThrough n) :=
  course_lookThrough [] (List.forall_mem_nil _)

theorem course_visit {field : String} {child : Part n} (found : n.part? field = some child) :
    Course source n [.visit child] := by
  have member := Node.mem_parts_of_part? found
  have course : Course source n ([] ++ [child].flatMap fun part => [.visit part]) :=
    .children (List.forall_mem_nil _) (List.singleton_sublist.2 member) fun part _ => .visit
  simpa using course

theorem course_defineSelf (callable : n.construct.isCallable = true) (name : String) (form : Form)
    (isMember : Bool) : Course source n [defineSelf source name form isMember n] :=
  .define callable (by simp [Spot.self]) rfl (List.forall_mem_nil _)

theorem course_definePart {field : String} {child : Part n} (found : n.part? field = some child)
    (isValue : child.construct.isFunctionValue = true) {d : Definition}
    (line : d.line = source.lineAt n.start) (isMember : Bool) {later : List (Step n)}
    (quiet : ∀ step ∈ later, step.Quiet) :
    Course source n (.define child.toSpot d isMember :: later) := by
  obtain ⟨position, placed⟩ := Node.exists_place_of_mem (Node.mem_parts_of_part? found)
  exact .define (Construct.isCallable_of_isFunctionValue isValue) (by rw [placed]; simp) line quiet

theorem course_freeFunction (callable : n.construct.isCallable = true) :
    Course source n [freeFunction source n] := by
  rw [freeFunction]
  split <;> exact course_defineSelf callable _ _ _

theorem course_functionDeclaration (callable : n.construct.isCallable = true) :
    Course source n [functionDeclaration source n] := by
  rw [functionDeclaration]
  split
  · exact course_defineSelf callable _ _ _
  · exact course_freeFunction callable

theorem course_functionValue (callable : n.construct.isCallable = true) (inside : Bool) :
    Course source n (functionValue source inside n) := by
  rw [functionValue]
  split
  · exact course_through
  · exact course_freeFunction callable

theorem course_method (callable : n.construct.isCallable = true) (parent : String) :
    Course source n (method source parent n) := by
  rw [method]
  split
  · exact course_defineSelf callable _ _ _
  · exact course_quiet (List.forall_mem_nil _)

theorem course_field : Course source n (field source n) := by
  rw [field]
  split
  next found =>
    split
    next isValue => exact course_definePart found isValue rfl _ (List.forall_mem_nil _)
    next => exact course_through
  next => exact course_through

theorem course_pair : Course source n (pair source n) := by
  rw [pair]
  split
  next found =>
    split
    next isValue => exact course_definePart found isValue rfl _ (List.forall_mem_nil _)
    next => exact course_visit found
  next => exact course_quiet (List.forall_mem_nil _)

theorem course_importStatement : Course source n (importStatement source n) := by
  rw [importStatement]
  split
  · refine course_quiet (View.quiet_of_binds fun step member => ?_)
    obtain ⟨part, -, member⟩ := List.mem_flatMap.1 member
    exact binds_importPart _ part step member
  · exact course_quiet (List.forall_mem_nil _)

theorem course_classWithin (hint : Option String) (child : Part n) :
    Course source n [(classDefinition source hint child.node).within child] := by
  -- The members of the class are the same parts, seen from the node that holds the class.
  have body : (((child.node.part? "body").map Part.namedParts).getD []).map child.within
      = (((child.node.part? "body").map child.within).map Part.namedParts).getD [] := by
    cases child.node.part? "body" with
    | none => rfl
    | some body => exact Part.map_within_namedParts child body
  rw [classDefinition, Step.within, body]
  exact .enter

theorem course_declarator : Course source n (declarator source n) := by
  rw [declarator]
  split
  next found =>
    split
    · exact course_quiet (View.quiet_of_binds (binds_requirement _ _))
    · split
      next isFunction =>
        obtain ⟨-, isValue⟩ := Bool.and_eq_true_iff.1 isFunction
        exact course_definePart found isValue rfl _ (List.forall_mem_nil _)
      next =>
        split
        · exact course_classWithin _ _
        · exact course_visit found
  next => exact course_quiet (List.forall_mem_nil _)

theorem course_assignment : Course source n (assignment source n) := by
  rw [assignment]
  split
  next found =>
    dsimp only
    split
    · exact course_quiet (by simp [Step.Quiet])
    · split
      next isValue =>
        split
        · exact course_definePart found isValue rfl _ (by simp [Step.Quiet])
        · split
          · exact course_definePart found isValue rfl _ (List.forall_mem_nil _)
          · exact course_through
      next => exact course_through
  next => exact course_quiet (List.forall_mem_nil _)

/-- A function that is a child of an export begins where the child begins. -/
theorem contribution_defineSelf (child : Part n) (callable : child.construct.isCallable = true)
    (name : String) (form : Form) {later : List (Step n)} (quiet : ∀ step ∈ later, step.Quiet) :
    Contribution source child
      ((defineSelf source name form false child.node).within child :: later) := by
  rw [defineSelf, Step.within, Spot.within_self]
  exact .define callable rfl quiet

theorem contribution_functionDeclaration (child : Part n)
    (callable : child.construct.isCallable = true) {later : List (Step n)}
    (quiet : ∀ step ∈ later, step.Quiet) :
    Contribution source child ((functionDeclaration source child.node).within child :: later) := by
  rw [functionDeclaration]
  split
  · exact contribution_defineSelf child callable _ _ quiet
  · rw [freeFunction]
    split <;> exact contribution_defineSelf child callable _ _ quiet

theorem contribution_exported (isDefault : Bool) (child : Part n) :
    Contribution source child (exported source isDefault child) := by
  rw [exported]
  split
  next declaration =>
    refine contribution_functionDeclaration child (by rw [declaration]; rfl) ?_
    split
    · split <;> simp [Step.Quiet]
    · exact List.forall_mem_nil _
  next =>
    split
    next isFunction =>
      obtain ⟨-, isValue⟩ := Bool.and_eq_true_iff.1 isFunction
      exact contribution_defineSelf child (Construct.isCallable_of_isFunctionValue isValue) _ _
        (by simp [Step.Quiet])
    next =>
      split
      · exact .quiet (by simp [Step.Quiet])
      · exact .visit

theorem course_exportStatement : Course source n (exportStatement source n) :=
  .children (List.forall_mem_nil _) List.filter_sublist fun child _ => contribution_exported _ child

end Plan

open Plan in
theorem plan_course (source : SourceText) (parent : String) (inside : Bool) (n : Node) :
    Course source n (plan source parent inside n) := by
  rw [plan]
  split
  next function => exact course_functionDeclaration (by rw [function]; rfl)
  next function => exact course_functionValue (by rw [function]; rfl) inside
  next function => exact course_functionValue (by rw [function]; rfl) inside
  next function => exact course_method (by rw [function]; rfl) parent
  · exact .enter
  · exact course_declarator
  · exact course_assignment
  · exact course_pair
  · exact course_field
  · exact course_exportStatement
  · exact course_importStatement
  · rw [call]
    split
    · exact course_lookThrough [_] (by simp [Step.Quiet])
    · exact course_through
  -- The eight constructs that always decide.
  iterate 8
    exact course_lookThrough [.branch] (by simp [Step.Quiet])
  · rw [binary]
    split
    · split
      · exact course_lookThrough [.branch] (by simp [Step.Quiet])
      · exact course_through
    · exact course_through
  · exact course_through

end LoadBearing
