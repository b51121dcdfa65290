import LoadBearing.Path.Module
import LoadBearing.Data.Table

/-! # Routines and calls

A *definition* is a function as it stands in one file.  A *routine* is a definition that has got an
identity in the whole code base.  A *call* leads from a routine to the routine it is known to call,
or keeps only the name written at the call site.
-/

namespace LoadBearing

inductive Form where
  | function
  | method
  | arrow
  | anonymous
  deriving DecidableEq, Repr

def Form.word : Form → String
  | .function => "function"
  | .method => "method"
  | .arrow => "arrow"
  | .anonymous => "anonymous"

def Form.all : List Form := [.function, .method, .arrow, .anonymous]

/-- The name of a method is qualified by its owner. -/
def qualify (owner : Option String) (name : String) : String :=
  match owner with
  | some owner => owner ++ "." ++ name
  | none => name

/-- A function as it stands in a file. -/
structure Definition where
  name : String
  /-- the class around a method -/
  owner : Option String
  form : Form
  line : Nat
  endLine : Nat
  params : Nat
  complexity : Nat
  deriving DecidableEq, Repr

def Definition.qualified (d : Definition) : String :=
  qualify d.owner d.name

/-- A definition over a span of lines, with no parameters and no decisions yet. -/
def Definition.spanning (name : String) (form : Form) (line endLine : Nat) : Definition where
  name := name
  owner := none
  form := form
  line := line
  endLine := max endLine line
  params := 0
  complexity := 1

/-- A function with its identity in the code base. -/
structure Routine where
  id : String
  name : String
  owner : Option String
  file : String
  /-- the module of the file -/
  home : String
  line : Nat
  endLine : Nat
  params : Nat
  complexity : Nat
  form : Form
  deriving DecidableEq, Repr

def Routine.ofDefinition (id file : String) (d : Definition) : Routine where
  id := id
  name := d.name
  owner := d.owner
  file := file
  home := Path.moduleOf file
  line := d.line
  endLine := max d.endLine d.line
  params := d.params
  complexity := max d.complexity 1
  form := d.form

def Routine.qualified (r : Routine) : String :=
  qualify r.owner r.name

def Routine.length (r : Routine) : Nat :=
  r.endLine - r.line + 1

def Routine.overlaps (r : Routine) (start stop : Nat) : Bool :=
  start ≤ r.endLine && r.line ≤ stop

/-- How the target of a call was found. -/
inductive Rule where
  /-- the name is bound by an import -/
  | imported
  /-- the receiver is a namespace import -/
  | member
  /-- the only function of that name in the file -/
  | sameFile
  /-- the only function of that name anywhere -/
  | unique
  deriving DecidableEq, Repr

def Rule.word : Rule → String
  | .imported => "import_binding"
  | .member => "namespace_member"
  | .sameFile => "same_file"
  | .unique => "global_unique"

/-- All rules, in the order in which they are tried. -/
def Rule.all : List Rule := [.imported, .member, .sameFile, .unique]

structure Call where
  source : String
  target : Option String
  name : String
  /-- the expression before the dot of a member call -/
  receiver : Option String
  resolved : Bool
  /-- whether the two ends lie in different modules -/
  crosses : Bool
  file : String
  line : Nat
  rule : Option Rule
  deriving DecidableEq, Repr

def Call.known (source target name : String) (receiver : Option String) (file : String) (line : Nat)
    (crosses : Bool) (rule : Rule) : Call where
  source := source
  target := some target
  name := name
  receiver := receiver
  resolved := true
  crosses := crosses
  file := file
  line := line
  rule := some rule

def Call.unknown (source name : String) (receiver : Option String) (file : String) (line : Nat) :
    Call where
  source := source
  target := none
  name := name
  receiver := receiver
  resolved := false
  crosses := false
  file := file
  line := line
  rule := none

def Call.leavesModule (c : Call) : Bool :=
  c.resolved && c.crosses

def Call.display (c : Call) : String :=
  match c.receiver with
  | some receiver => receiver ++ "." ++ c.name
  | none => c.name

end LoadBearing
