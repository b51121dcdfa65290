import LoadBearing.Source.Plan

/-! # From a syntax tree to an outline

The walk carries out the plan of every node it comes to, from left to right.  It keeps the outline
so far and the classes around the current node; the function around the current node is an argument,
so it is the same before and after every visit.
-/

namespace LoadBearing

structure Walk where
  outline : Outline
  /-- the names of the classes around the current node, the innermost first -/
  classes : List String := []
  deriving DecidableEq, Repr

namespace Walk

/-- Adds a definition; a member gets the innermost class as its owner. -/
def define (w : Walk) (d : Definition) (isMember : Bool) : Walk :=
  let d := if isMember then { d with owner := w.classes.head? } else d
  { w with outline := { w.outline with definitions := w.outline.definitions ++ [d] } }

def branch (w : Walk) (current : Option Nat) : Walk :=
  match current with
  | none => w
  | some index =>
    let definitions := w.outline.definitions.modify index fun d =>
      { d with complexity := d.complexity + 1 }
    { w with outline := { w.outline with definitions := definitions } }

def call (w : Walk) (current : Option Nat) (name : String) (receiver : Option String) (line : Nat) :
    Walk :=
  match current with
  | none => w
  | some caller =>
    let sites := w.outline.sites ++ [⟨caller, name, receiver, line⟩]
    { w with outline := { w.outline with sites := sites } }

def bind (w : Walk) (name : String) (binding : Import) : Walk :=
  { w with outline := { w.outline with imports := w.outline.imports.insert name binding } }

def exportDefault (w : Walk) (name : String) : Walk :=
  { w with outline := { w.outline with defaultExport := some name } }

def enter (w : Walk) (name : String) : Walk := { w with classes := name :: w.classes }

def leave (w : Walk) : Walk := { w with classes := w.classes.tail }

/-- Looks at a node in the function at position `current`. -/
def visit (source : SourceText) (parent : String) (current : Option Nat) (n : Node) (w : Walk) :
    Walk :=
  (plan source parent current.isSome n).foldl (fun w step =>
    match step with
    | .visit part => visit source part.parent current part.node w
    | .define callable d isMember =>
      let index := w.outline.definitions.length
      (Plan.body callable.node).foldl
        (fun w part => visit source part.parent (some index) part.node w) (w.define d isMember)
    | .enter name body =>
      (body.foldl (fun w part => visit source part.parent current part.node w)
        (w.enter name)).leave
    | .call name receiver line => w.call current name receiver line
    | .branch => w.branch current
    | .bind name binding => w.bind name binding
    | .exportDefault name => w.exportDefault name) w
termination_by n.size
decreasing_by
  · exact part.size_lt
  · exact Nat.lt_of_lt_of_le part.size_lt callable.size_le
  · exact part.size_lt

end Walk

def Outline.ofTree (file : String) (source : SourceText) (root : Node) : Outline :=
  let start : Walk := { outline := { file := file } }
  (root.namedParts.foldl (fun w part => w.visit source part.parent none part.node)
    start).outline

end LoadBearing
