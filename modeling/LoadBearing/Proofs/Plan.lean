import Mathlib.Data.List.Infix
import LoadBearing.Source.Walk

/-! # What a plan can do

A plan either looks into parts of its node that have nothing in common, or it is a call or a decision
followed by a look at all children.  `plan_shape` says this once for all constructs; what is proved
about walks follows from it without opening a plan again.
-/

namespace LoadBearing

/-! ## Places -/

/-- Neither of two places lies inside the other. -/
def Apart (one other : List Nat) : Prop :=
  ¬ one <+: other ∧ ¬ other <+: one

theorem Apart.mono {one other oneInner otherInner : List Nat} (apart : Apart one other)
    (oneBelow : one <+: oneInner) (otherBelow : other <+: otherInner) :
    Apart oneInner otherInner := by
  constructor
  · intro inside
    exact (List.prefix_or_prefix_of_prefix (oneBelow.trans inside) otherBelow).elim apart.1 apart.2
  · intro inside
    exact (List.prefix_or_prefix_of_prefix oneBelow (otherBelow.trans inside)).elim apart.1 apart.2

theorem apart_singleton {one other : Nat} (different : one ≠ other) : Apart [one] [other] := by
  constructor
  · intro inside
    exact different (List.prefix_cons_iff.1 inside |>.elim (nomatch ·) fun ⟨_, same, _⟩ =>
      (List.cons.inj same).1)
  · intro inside
    exact different (List.prefix_cons_iff.1 inside |>.elim (nomatch ·) fun ⟨_, same, _⟩ =>
      (List.cons.inj same).1.symm)

theorem apart_append_iff {outer one other : List Nat} :
    Apart (outer ++ one) (outer ++ other) ↔ Apart one other := by
  rw [Apart, Apart, List.prefix_append_right_inj, List.prefix_append_right_inj]

namespace Node

variable {n : Node}

theorem map_place_parts (n : Node) :
    n.parts.map (·.place) = (List.range n.children.length).map fun position => [position] := by
  rw [parts, List.map_map]
  change n.children.zipIdx.attach.map ((fun entry => [entry.2]) ∘ Subtype.val) = _
  rw [← List.map_map, List.attach_map_subtype_val, List.range_eq_range', ← List.zipIdx_map_snd 0,
    List.map_map]
  rfl

theorem apart_parts (n : Node) : (n.parts.map (·.place)).Pairwise Apart := by
  rw [map_place_parts, List.pairwise_map]
  exact List.pairwise_lt_range.imp fun less => apart_singleton (Nat.ne_of_lt less)

theorem apart_namedParts (n : Node) : (n.namedParts.map (·.place)).Pairwise Apart :=
  (apart_parts n).sublist (List.filter_sublist.map _)

theorem exists_place_of_mem {part : Part n} (member : part ∈ n.parts) :
    ∃ position, part.place = [position] := by
  have placed : part.place ∈ n.parts.map (·.place) := List.mem_map_of_mem member
  rw [map_place_parts] at placed
  obtain ⟨position, -, same⟩ := List.mem_map.1 placed
  exact ⟨position, same.symm⟩

theorem apart_of_part? {field other : String} (different : field ≠ other) {one two : Part n}
    (first : n.part? field = some one) (second : n.part? other = some two) :
    Apart one.place two.place := by
  obtain ⟨onePosition, onePlace⟩ := exists_place_of_mem (List.mem_of_find?_eq_some first)
  obtain ⟨twoPosition, twoPlace⟩ := exists_place_of_mem (List.mem_of_find?_eq_some second)
  have oneField : one.node.field = field := by simpa using List.find?_some first
  have twoField : two.node.field = other := by simpa using List.find?_some second
  rw [onePlace, twoPlace]
  refine apart_singleton ?_
  rintro rfl
  have same := one.found.symm.trans (onePlace ▸ twoPlace ▸ two.found)
  rw [Option.some.injEq] at same
  exact different (by rw [← oneField, ← twoField, same])

end Node

theorem Part.apart_namedParts {whole : Node} (part : Part whole) :
    (part.namedParts.map (·.place)).Pairwise Apart := by
  rw [Part.namedParts, List.map_map]
  have inner := part.node.apart_namedParts
  rw [List.pairwise_map] at inner ⊢
  exact inner.imp fun apart => apart_append_iff.2 apart

theorem Part.prefix_namedParts {whole : Node} {part inner : Part whole}
    (member : inner ∈ part.namedParts) : part.place <+: inner.place := by
  obtain ⟨child, -, rfl⟩ := List.mem_map.1 member
  exact List.prefix_append _ _

theorem Plan.apart_body (callable : Node) :
    ((Plan.body callable).map (·.place)).Pairwise Apart := by
  rw [Plan.body, List.map_append, List.pairwise_append]
  refine ⟨?_, ?_, ?_⟩
  · cases callable.part? "parameters" with
    | none => exact List.Pairwise.nil
    | some params => exact params.apart_namedParts
  · cases callable.part? "body" with
    | none => exact List.Pairwise.nil
    | some body => exact List.pairwise_singleton _ _
  · -- Parameters and body fill different fields, so they are different children.
    intro one oneMember two twoMember
    obtain ⟨inner, innerMember, rfl⟩ := List.mem_map.1 oneMember
    obtain ⟨body, bodyMember, rfl⟩ := List.mem_map.1 twoMember
    rw [Option.mem_toList] at bodyMember
    cases found : callable.part? "parameters" with
    | none => rw [found] at innerMember; cases innerMember
    | some params =>
      rw [found] at innerMember
      exact (Node.apart_of_part? (by decide) found bodyMember).mono
        (Part.prefix_namedParts innerMember) (List.prefix_refl _)

/-! ## Steps -/

def Step.regions {n : Node} : Step n → List (List Nat)
  | .visit part => [part.place]
  | .define callable _ _ => [callable.place]
  | .enter _ body => body.map (·.place)
  | .call _ _ _ | .branch | .bind _ _ | .exportDefault _ => []

/-- A step other than a call or a decision.  What it defines has no decisions yet and is counted and
    delimited as its callable says. -/
def Step.Plain (source : SourceText) {n : Node} : Step n → Prop
  | .call _ _ _ | .branch => False
  | .define callable d _ => d.complexity = 1 ∧ d.params = Plan.paramCount callable.node ∧
      d.endLine = max (source.lineAt callable.node.stop) d.line
  | .visit _ | .enter _ _ | .bind _ _ | .exportDefault _ => True

/-- Plain steps that look into places with nothing in common. -/
def Tame (source : SourceText) {n : Node} (steps : List (Step n)) : Prop :=
  (∀ step ∈ steps, step.Plain source) ∧ (steps.flatMap Step.regions).Pairwise Apart

/-- A node that makes a decision. -/
def isDecision (source : SourceText) (n : Node) : Bool :=
  n.construct.isBranch || (n.construct = .binary &&
    (n.part? "operator").any fun operator => isLogicalOperator (Plan.partText source operator))

inductive PlanShape (source : SourceText) (n : Node) : List (Step n) → Prop where
  | tame {steps : List (Step n)} : Tame source steps → PlanShape source n steps
  | call {name : String} {receiver : Option String} : n.construct = .call →
      (n.part? "function").bind (Plan.callee? source) = some (name, receiver) →
      PlanShape source n (.call name receiver (source.lineAt n.start) :: Plan.lookThrough n)
  | branch : isDecision source n = true → PlanShape source n (.branch :: Plan.lookThrough n)

namespace Plan

variable {source : SourceText} {n : Node}

theorem tame_nil : Tame source ([] : List (Step n)) :=
  ⟨fun _ member => (nomatch member), List.Pairwise.nil⟩

theorem tame_singleton {step : Step n} (plain : step.Plain source)
    (apart : step.regions.Pairwise Apart) : Tame source [step] := by
  refine ⟨fun other member => List.mem_singleton.1 member ▸ plain, ?_⟩
  rw [List.flatMap_singleton]
  exact apart

/-- A step after which only a default export is declared. -/
theorem tame_exportDefault {step : Step n} (tame : Tame source [step]) (name : String) :
    Tame source [step, .exportDefault name] := by
  refine ⟨fun other member => ?_, ?_⟩
  · rcases List.mem_cons.1 member with rfl | last
    · exact tame.1 _ List.mem_cons_self
    · rw [List.mem_singleton.1 last]
      trivial
  · simpa [Step.regions] using tame.2

theorem tame_binds {steps : List (Step n)}
    (binds : ∀ step ∈ steps, ∃ name binding, step = .bind name binding) :
    Tame source steps := by
  constructor
  · intro step member
    obtain ⟨name, binding, rfl⟩ := binds step member
    trivial
  · have empty : steps.flatMap Step.regions = [] := by
      rw [List.flatMap_eq_nil_iff]
      intro step member
      obtain ⟨name, binding, rfl⟩ := binds step member
      rfl
    rw [empty]
    exact List.Pairwise.nil

theorem regions_lookThrough (n : Node) :
    (lookThrough n).flatMap Step.regions = n.namedParts.map (·.place) := by
  rw [lookThrough, List.flatMap_map, List.map_eq_flatMap]
  rfl

theorem tame_lookThrough (source : SourceText) (n : Node) : Tame source (lookThrough n) := by
  constructor
  · intro step member
    obtain ⟨part, -, rfl⟩ := List.mem_map.1 member
    trivial
  · rw [regions_lookThrough]
    exact n.apart_namedParts

/-- The definition of a callable at a spot is plain, whoever owns it. -/
theorem plain_definition (name : String) (form : Form) (spot : Spot n) (anchor : Node)
    (owner : Option String) (isMember : Bool) :
    (Step.define spot { definition source name form spot.node anchor with owner := owner }
      isMember).Plain source :=
  ⟨rfl, rfl, rfl⟩

theorem tame_visit (part : Part n) : Tame source [.visit part] :=
  tame_singleton trivial (List.pairwise_singleton _ _)

theorem tame_defineSelf (name : String) (form : Form) (isMember : Bool) :
    Tame source [defineSelf source name form isMember n] :=
  tame_singleton (plain_definition name form (Spot.self n) n none isMember)
    (List.pairwise_singleton _ _)

theorem tame_definePart (name : String) (form : Form) (isMember : Bool) (part : Part n) :
    Tame source [definePart source name form isMember part] :=
  tame_singleton (plain_definition name form part.toSpot n none isMember)
    (List.pairwise_singleton _ _)

theorem tame_freeFunction : Tame source [freeFunction source n] := by
  rw [freeFunction]
  split
  · exact tame_defineSelf _ _ _
  · exact tame_defineSelf _ _ _

theorem tame_functionDeclaration : Tame source [functionDeclaration source n] := by
  rw [functionDeclaration]
  split
  · exact tame_defineSelf _ _ _
  · exact tame_freeFunction

theorem tame_functionValue (inside : Bool) : Tame source (functionValue source inside n) := by
  rw [functionValue]
  split
  · exact tame_lookThrough source n
  · exact tame_freeFunction

theorem tame_method (parent : String) : Tame source (method source parent n) := by
  rw [method]
  split
  · exact tame_defineSelf _ _ _
  · exact tame_nil

theorem tame_classDefinition (hint : Option String) :
    Tame source [classDefinition source hint n] := by
  refine tame_singleton trivial ?_
  change ((((n.part? "body").map Part.namedParts).getD []).map (·.place)).Pairwise Apart
  cases n.part? "body" with
  | none => exact List.Pairwise.nil
  | some body => exact body.apart_namedParts

theorem tame_field : Tame source (field source n) := by
  rw [field]
  split
  · split
    · exact tame_definePart _ _ _ _
    · exact tame_lookThrough source n
  · exact tame_lookThrough source n

theorem tame_pair : Tame source (pair source n) := by
  rw [pair]
  split
  · split
    · exact tame_definePart _ _ _ _
    · exact tame_visit _
  · exact tame_nil

/-! ## Steps of parts -/

theorem regions_within (outer : Part n) (step : Step outer.node) :
    (step.within outer).regions = step.regions.map (outer.place ++ ·) := by
  cases step with
  | enter name body =>
    simp only [Step.within, Step.regions, List.map_map]
    rfl
  | visit part => rfl
  | define callable d isMember => rfl
  | call name receiver line => rfl
  | branch => rfl
  | bind name binding => rfl
  | exportDefault name => rfl

theorem plain_within (outer : Part n) {step : Step outer.node} (plain : step.Plain source) :
    (step.within outer).Plain source := by
  cases step with
  | define callable d isMember => exact plain
  | visit part => trivial
  | enter name body => trivial
  | call name receiver line => exact plain
  | branch => exact plain
  | bind name binding => trivial
  | exportDefault name => trivial

theorem tame_within (outer : Part n) {step : Step outer.node} (tame : Tame source [step]) :
    Tame source [step.within outer] := by
  refine tame_singleton (plain_within outer (tame.1 step List.mem_cons_self)) ?_
  have apart := tame.2
  rw [List.flatMap_singleton] at apart
  rw [regions_within, List.pairwise_map]
  exact apart.imp fun apart => apart_append_iff.2 apart

/-! ## Bindings -/

theorem binds_requirement (specifier : String) (pattern : Part n) :
    ∀ step ∈ requirement source specifier pattern, ∃ name binding, step = .bind name binding := by
  intro step member
  rw [requirement] at member
  split at member
  · exact ⟨_, _, List.mem_singleton.1 member⟩
  · split at member
    · obtain ⟨property, -, member⟩ := List.mem_flatMap.1 member
      rw [patternProperty] at member
      split at member
      · exact ⟨_, _, List.mem_singleton.1 member⟩
      · split at member
        · split at member
          · split at member
            · exact ⟨_, _, List.mem_singleton.1 member⟩
            · cases member
          · cases member
        · cases member
    · cases member

theorem binds_importPart (specifier : String) (part : Part n) :
    ∀ step ∈ importPart source specifier part, ∃ name binding, step = .bind name binding := by
  intro step member
  rw [importPart] at member
  split at member
  · exact ⟨_, _, List.mem_singleton.1 member⟩
  · split at member
    · split at member
      · exact ⟨_, _, List.mem_singleton.1 member⟩
      · cases member
    · split at member
      · obtain ⟨item, -, member⟩ := List.mem_flatMap.1 member
        rw [importName] at member
        split at member
        · cases member
        · exact ⟨_, _, List.mem_singleton.1 member⟩
      · cases member

theorem tame_importStatement : Tame source (importStatement source n) := by
  rw [importStatement]
  split
  · refine tame_binds fun step member => ?_
    obtain ⟨part, -, member⟩ := List.mem_flatMap.1 member
    exact binds_importPart _ part step member
  · exact tame_nil

theorem tame_declarator : Tame source (declarator source n) := by
  rw [declarator]
  split
  · split
    · exact tame_binds (binds_requirement _ _)
    · split
      · exact tame_definePart _ _ _ _
      · split
        · exact tame_within _ (tame_classDefinition _)
        · exact tame_visit _
  · exact tame_nil

theorem tame_defineTarget (name : String) (owner : Option String) (value : Part n) :
    Tame source [defineTarget source name owner value] :=
  tame_singleton (plain_definition name _ value.toSpot n owner false) (List.pairwise_singleton _ _)

theorem tame_assignment : Tame source (assignment source n) := by
  rw [assignment]
  split
  · dsimp only
    split
    · exact tame_singleton trivial List.Pairwise.nil
    · split
      · split
        · exact tame_exportDefault (tame_definePart _ _ _ _) _
        · split
          · exact tame_defineTarget _ _ _
          · exact tame_lookThrough source n
      · exact tame_lookThrough source n
  · exact tame_nil

/-! ## Exports -/

theorem regions_functionDeclaration : (functionDeclaration source n).regions = [[]] := by
  rw [functionDeclaration]
  split
  · rfl
  · rw [freeFunction]
    split <;> rfl

/-- A step that defines a child of an export, and at most a declaration of the default export. -/
theorem exported_define {child : Part n} {step : Step child.node} {later : List (Step n)}
    (tame : Tame source [step]) (self : step.regions = [[]])
    (declares : ∀ other ∈ later, ∃ name, other = .exportDefault name) :
    (∀ other ∈ step.within child :: later, other.Plain source) ∧
      ((step.within child :: later).flatMap Step.regions).Sublist [child.place] := by
  constructor
  · intro other member
    rcases List.mem_cons.1 member with rfl | member
    · exact plain_within child (tame.1 step List.mem_cons_self)
    · obtain ⟨name, rfl⟩ := declares other member
      trivial
  · have quiet : later.flatMap Step.regions = [] := by
      rw [List.flatMap_eq_nil_iff]
      intro other member
      obtain ⟨name, rfl⟩ := declares other member
      rfl
    rw [List.flatMap_cons, quiet, regions_within, self]
    simp

/-- What is done about one child of an export stays inside the child. -/
theorem exported_spec (isDefault : Bool) (child : Part n) :
    (∀ step ∈ exported source isDefault child, step.Plain source) ∧
      ((exported source isDefault child).flatMap Step.regions).Sublist [child.place] := by
  rw [exported]
  split
  · refine exported_define tame_functionDeclaration regions_functionDeclaration ?_
    intro other member
    split at member
    · split at member
      · exact ⟨_, List.mem_singleton.1 member⟩
      · cases member
    · cases member
  · split
    · refine exported_define (tame_defineSelf _ _ _) rfl ?_
      intro other member
      exact ⟨_, List.mem_singleton.1 member⟩
    · split
      · refine ⟨fun step member => ?_, List.nil_sublist _⟩
        rw [List.mem_singleton.1 member]
        trivial
      · exact ⟨(tame_visit child).1, List.Sublist.refl _⟩

theorem tame_exportStatement : Tame source (exportStatement source n) := by
  rw [exportStatement]
  generalize (n.children.any fun child => child.kind = "default") = isDefault
  constructor
  · intro step member
    obtain ⟨child, -, member⟩ := List.mem_flatMap.1 member
    exact (exported_spec isDefault child).1 step member
  · -- Each child contributes its own place or nothing.
    refine n.apart_namedParts.sublist ?_
    rw [List.flatMap_assoc, ← List.flatMap_pure_eq_map]
    induction n.namedParts with
    | nil => exact List.Sublist.slnil
    | cons child rest ih =>
      rw [List.flatMap_cons, List.flatMap_cons]
      exact (exported_spec isDefault child).2.append ih

end Plan

open Plan in
theorem plan_shape (source : SourceText) (parent : String) (inside : Bool) (n : Node) :
    PlanShape source n (plan source parent inside n) := by
  rw [plan]
  split
  · exact .tame tame_functionDeclaration
  · exact .tame (tame_functionValue inside)
  · exact .tame (tame_functionValue inside)
  · exact .tame (tame_method parent)
  · exact .tame (tame_classDefinition none)
  · exact .tame tame_declarator
  · exact .tame tame_assignment
  · exact .tame tame_pair
  · exact .tame tame_field
  · exact .tame tame_exportStatement
  · exact .tame tame_importStatement
  next isCall =>
    rw [call]
    split
    next found => exact .call isCall found
    next => exact .tame (tame_lookThrough source n)
  -- The eight constructs that always decide.
  iterate 8
    next isBranch => exact .branch (by simp [isDecision, isBranch, Construct.isBranch])
  next isBinary =>
    rw [binary]
    split
    next operator found =>
      split
      next logical => exact .branch (by simp [isDecision, isBinary, found, logical])
      next => exact .tame (tame_lookThrough source n)
    next => exact .tame (tame_lookThrough source n)
  next => exact .tame (tame_lookThrough source n)

end LoadBearing
