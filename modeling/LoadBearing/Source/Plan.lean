import LoadBearing.Source.Outline
import LoadBearing.Source.Text
import LoadBearing.Source.Tree
import LoadBearing.Text.Blank

/-! # What a node contributes

`plan` says what one node of a syntax tree contributes to the outline, as a list of steps.  A step
that looks further into the tree names the parts to look at.  The plan of a node does not depend on
what was found elsewhere, except that a function without a name of its own counts as part of the
function around it: `inside` tells whether there is one.
-/

namespace LoadBearing

inductive Step (whole : Node) where
  /-- look at a part, as part of the same function -/
  | visit (part : Part whole)
  /-- a function is defined; its parameters and its body belong to it.  A member takes the innermost
      class as its owner -/
  | define (callable : Spot whole) (definition : Definition) (isMember : Bool)
  /-- look at the parts of a class -/
  | enter (name : String) (body : List (Part whole))
  | call (name : String) (receiver : Option String) (line : Nat)
  | branch
  /-- a local name is bound by an import -/
  | bind (name : String) (binding : Import)
  /-- the default export is declared -/
  | exportDefault (name : String)

def Step.within {whole : Node} (outer : Part whole) : Step outer.node → Step whole
  | .visit part => .visit (outer.within part)
  | .define callable definition isMember => .define (callable.within outer) definition isMember
  | .enter name body => .enter name (body.map outer.within)
  | .call name receiver line => .call name receiver line
  | .branch => .branch
  | .bind name binding => .bind name binding
  | .exportDefault name => .exportDefault name

namespace Plan

variable (source : SourceText)

def text (n : Node) : String := source.slice n.start n.stop

def partText {whole : Node} (part : Part whole) : String := text source part.node

/-- A literal or a name without the quotes around it. -/
def unquote (literal : String) : String :=
  Text.trimEndsOf (fun c => c = '"' || c = '\'' || c = '\x60') literal

/-- Looks at every child that stands for a construct. -/
def lookThrough (n : Node) : List (Step n) := n.namedParts.map .visit

/-! ## Functions -/

def paramCount (callable : Node) : Nat :=
  match callable.part? "parameters" with
  | some params => params.namedParts.countP fun param => param.kind ≠ "comment"
  | none => if (callable.part? "parameter").isSome then 1 else 0

/-- The parts that belong to a function: its parameters, whose default values may call something,
    and its body. -/
def body (callable : Node) : List (Part callable) :=
  ((callable.part? "parameters").map Part.namedParts).getD [] ++ (callable.part? "body").toList

def definition (name : String) (form : Form) (callable anchor : Node) : Definition :=
  { Definition.spanning name form (source.lineAt anchor.start) (source.lineAt callable.stop) with
    params := paramCount callable }

def defineSelf (name : String) (form : Form) (isMember : Bool) (n : Node) : Step n :=
  .define (Spot.self n) (definition source name form n n) isMember

def definePart {n : Node} (name : String) (form : Form) (isMember : Bool) (part : Part n) : Step n :=
  .define part.toSpot (definition source name form part.node n) isMember

/-- A function that is a value: with a name of its own, or else known by its line. -/
def freeFunction (n : Node) : Step n :=
  match n.part? "name" with
  | some name => defineSelf source (partText source name) .function false n
  | none =>
    defineSelf source s!"<anonymous>@L{source.lineAt n.start}" .anonymous false n

/-- A function value: part of the function around it, if there is one. -/
def functionValue (inside : Bool) (n : Node) : List (Step n) :=
  if inside then lookThrough n else [freeFunction source n]

def functionDeclaration (n : Node) : Step n :=
  match n.part? "name" with
  | some name => defineSelf source (partText source name) .function false n
  | none => freeFunction source n

/-- The form of a function value that is bound to a name. -/
def valueForm (construct : Construct) : Form :=
  if construct = .arrowFunction then .arrow else .function

/-- The name and the form of a function value that is a default export. -/
def defaultName {whole : Node} (callable : Part whole) : String × Form :=
  match callable.part? "name" with
  | some name => (partText source name, .function)
  | none => ("default", .anonymous)

/-! ## Classes and objects -/

/-- A method; only directly in the body of a class does it belong to the class. -/
def method (parent : String) (n : Node) : List (Step n) :=
  match n.part? "name" with
  | some name => [defineSelf source (partText source name) .method (parent = "class_body") n]
  | none => []

/-- A class, named by itself, by what it is assigned to, or not at all. -/
def classDefinition (hint : Option String) (n : Node) : Step n :=
  let name := ((n.part? "name").map (partText source)).or hint
  .enter (name.getD "<class>") (((n.part? "body").map Part.namedParts).getD [])

def field (n : Node) : List (Step n) :=
  match (n.part? "property").or (n.part? "name"), n.part? "value" with
  | some name, some value =>
    if value.construct.isFunctionValue then
      [definePart source (partText source name) .method true value]
    else lookThrough n
  | _, _ => lookThrough n

def pair (n : Node) : List (Step n) :=
  match n.part? "key", n.part? "value" with
  | some key, some value =>
    if value.construct.isFunctionValue then
      [definePart source (unquote (partText source key)) .method false value]
    else [.visit value]
  | _, _ => []

/-! ## Imports -/

/-- The module that a call to `require` names. -/
def required? {whole : Node} (value : Part whole) : Option String := do
  if value.construct ≠ .call then none
  let function ← value.part? "function"
  if partText source function ≠ "require" then none
  let arguments ← value.part? "arguments"
  let first ← arguments.namedParts.head?
  if first.kind = "string" then some (unquote (partText source first)) else none

def patternProperty {whole : Node} (specifier : String) (property : Part whole) :
    List (Step whole) :=
  if property.kind = "shorthand_property_identifier_pattern" then
    let name := partText source property
    [.bind name (.named specifier name)]
  else if property.kind = "pair_pattern" then
    match property.part? "key", property.part? "value" with
    | some key, some value =>
      if value.kind = "identifier" then
        [.bind (partText source value) (.named specifier (unquote (partText source key)))]
      else []
    | _, _ => []
  else []

/-- The bindings of a pattern that a whole module is assigned to. -/
def requirement {whole : Node} (specifier : String) (pattern : Part whole) : List (Step whole) :=
  if pattern.kind = "identifier" then [.bind (partText source pattern) (.whole specifier)]
  else if pattern.kind = "object_pattern" then
    pattern.namedParts.flatMap (patternProperty source specifier)
  else []

def importName {whole : Node} (specifier : String) (item : Part whole) : List (Step whole) :=
  match item.part? "name" with
  | none => []
  | some name =>
    let exported := partText source name
    let localName := ((item.part? "alias").map (partText source)).getD exported
    [.bind localName (.named specifier exported)]

def importPart {whole : Node} (specifier : String) (part : Part whole) : List (Step whole) :=
  if part.kind = "identifier" then [.bind (partText source part) (.named specifier "default")]
  else if part.kind = "namespace_import" then
    match part.namedParts.find? fun child => child.kind = "identifier" with
    | some name => [.bind (partText source name) (.whole specifier)]
    | none => []
  else if part.kind = "named_imports" then
    (part.namedParts.filter fun child => child.kind = "import_specifier").flatMap
      (importName source specifier)
  else []

def importStatement (n : Node) : List (Step n) :=
  match n.part? "source", n.namedParts.find? fun child => child.kind = "import_clause" with
  | some specifier, some clause =>
    clause.namedParts.flatMap (importPart source (unquote (partText source specifier)))
  | _, _ => []

/-! ## Bindings -/

def declarator (n : Node) : List (Step n) :=
  match n.part? "name", n.part? "value" with
  | some name, some value =>
    match required? source value with
    | some specifier => requirement source specifier name
    | none =>
      if name.kind = "identifier" && value.construct.isFunctionValue then
        [definePart source (partText source name) (valueForm value.construct) false value]
      else if name.kind = "identifier" && value.construct = .classDefinition then
        [(classDefinition source (some (partText source name)) value.node).within value]
      else [.visit value]
  | _, _ => []

/-- The class in the target of an assignment to a method of its prototype. -/
def prototypeOwner? {whole : Node} (target : Part whole) : Option String := do
  let object ← target.part? "object"
  if object.kind ≠ "member_expression" then none
  let property ← object.part? "property"
  if partText source property ≠ "prototype" then none
  let owner ← object.part? "object"
  some (partText source owner)

/-- The name and the owner that an assignment gives to a function value. -/
def target? {whole : Node} (left : Part whole) : Option (String × Option String) :=
  if left.kind = "identifier" then some (partText source left, none)
  else if left.kind = "member_expression" then
    (left.part? "property").map fun property =>
      (partText source property, prototypeOwner? source left)
  else none

/-- Defines a function value with the name and the owner that it is assigned to. -/
def defineTarget {n : Node} (name : String) (owner : Option String) (value : Part n) : Step n :=
  .define value.toSpot
    { definition source name (valueForm value.construct) value.node n with owner := owner } false

def assignment (n : Node) : List (Step n) :=
  match n.part? "left", n.part? "right" with
  | some left, some right =>
    let exports := partText source left = "module.exports"
    if exports && right.kind = "identifier" then [.exportDefault (partText source right)]
    else if right.construct.isFunctionValue then
      if exports then
        let (name, form) := defaultName source right
        [definePart source name form false right, .exportDefault name]
      else
        match target? source left with
        | some (name, owner) => [defineTarget source name owner right]
        | none => lookThrough n
    else lookThrough n
  | _, _ => []

/-! ## Exports -/

def exported {n : Node} (isDefault : Bool) (child : Part n) : List (Step n) :=
  match child.construct with
  | .functionDeclaration =>
    (functionDeclaration source child.node).within child ::
      match child.part? "name" with
      | some name => if isDefault then [.exportDefault (partText source name)] else []
      | none => []
  | construct =>
    if isDefault && construct.isFunctionValue then
      let (name, form) := defaultName source child
      [(defineSelf source name form false child.node).within child, .exportDefault name]
    else if isDefault && child.kind = "identifier" then [.exportDefault (partText source child)]
    else [.visit child]

def exportStatement (n : Node) : List (Step n) :=
  let isDefault := n.children.any fun child => child.kind = "default"
  n.namedParts.flatMap (exported source isDefault)

/-! ## Calls -/

/-- The name and the receiver of a call, if what is called has a name. -/
def callee? {whole : Node} (function : Part whole) : Option (String × Option String) :=
  if function.kind = "identifier" then some (partText source function, none)
  else if function.kind = "member_expression" then
    (function.part? "property").map fun property =>
      (partText source property,
        (function.part? "object").map fun object => Text.squeeze (partText source object))
  else none

def call (n : Node) : List (Step n) :=
  match (n.part? "function").bind (callee? source) with
  | some (name, receiver) => .call name receiver (source.lineAt n.start) :: lookThrough n
  | none => lookThrough n

def binary (n : Node) : List (Step n) :=
  match n.part? "operator" with
  | some operator =>
    if isLogicalOperator (partText source operator) then .branch :: lookThrough n
    else lookThrough n
  | none => lookThrough n

end Plan

open Plan in
/-- What a node contributes, where `parent` is the kind of the node around it and `inside` tells
    whether a function is around it. -/
def plan (source : SourceText) (parent : String) (inside : Bool) (n : Node) : List (Step n) :=
  match n.construct with
  | .functionDeclaration => [functionDeclaration source n]
  | .functionExpression | .arrowFunction => functionValue source inside n
  | .method => method source parent n
  | .classDefinition => [classDefinition source none n]
  | .declarator => declarator source n
  | .assignment => assignment source n
  | .pair => pair source n
  | .field => field source n
  | .exportStatement => exportStatement source n
  | .importStatement => importStatement source n
  | .call => call source n
  | .ifStatement | .forStatement | .forInStatement | .whileStatement | .doStatement | .switchCase
  | .catchClause | .ternary => .branch :: lookThrough n
  | .binary => binary source n
  | .other => lookThrough n

end LoadBearing
