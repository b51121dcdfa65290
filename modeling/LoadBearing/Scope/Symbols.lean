import LoadBearing.Source.Outline
import LoadBearing.Scope.Builtin

/-! # Finding the target of a call

`Symbols` holds two indices over all routines: by name, and by the key under which a file exports a
name.  A call is tried against four rules in order, and the first rule that finds a target wins.
-/

namespace LoadBearing.Scope

/-- The key under which a file exports a name. -/
def exportKey (file name : String) : String :=
  file ++ "::" ++ name

structure Symbols where
  /-- file and identity of the routines of a name, in order -/
  byName : Table (List (String × String)) := []
  /-- the identity exported under a key -/
  exports : Table String := []
  deriving Repr

/-- Enters a routine: under its name, and as an export under its name and its qualified name.  The
    first routine to claim an export key keeps it. -/
def Symbols.enter (s : Symbols) (r : Routine) : Symbols where
  byName := s.byName.update r.name fun entries => entries.getD [] ++ [(r.file, r.id)]
  exports :=
    let exports := s.exports.insertNew (exportKey r.file r.name) r.id
    if r.owner.isSome then exports.insertNew (exportKey r.file r.qualified) r.id else exports

def Symbols.bindDefault (s : Symbols) (entry : String × String) : Symbols :=
  { s with exports := s.exports.insert (exportKey entry.1 "default") entry.2 }

def Symbols.build (routines : List Routine) (defaults : Table String) : Symbols :=
  defaults.foldl Symbols.bindDefault (routines.foldl Symbols.enter {})

def Symbols.export? (s : Symbols) (file name : String) : Option String :=
  s.exports.find? (exportKey file name)

/-- The identity of the only routine of a name, among the routines of one file if one is given. -/
def Symbols.only? (s : Symbols) (name : String) (inFile : Option String) : Option String :=
  match ((s.byName.find? name).getD []).filter fun entry => inFile.all (· = entry.1) with
  | [entry] => some entry.2
  | _ => none

/-- A call to be resolved: where it stands, what it says, and what the file imports. -/
structure Query where
  file : String
  name : String
  receiver : Option String
  imports : Table Import

structure Resolution where
  target : String
  rule : Rule
  deriving DecidableEq, Repr

def Symbols.through? (s : Symbols) (binding : Import) (name : String) : Option String := do
  let file ← binding.file
  s.export? file name

/-- The target of a plain call whose name is bound by an import. -/
def Symbols.viaImport? (s : Symbols) (q : Query) : Option String :=
  match q.receiver with
  | some _ => none
  | none => do
    let binding ← q.imports.find? q.name
    if binding.isNamespace then none else s.through? binding binding.exported

/-- The target of a member call on a namespace import. -/
def Symbols.viaNamespace? (s : Symbols) (q : Query) : Option String := do
  let receiver ← q.receiver
  let binding ← q.imports.find? receiver
  if binding.isNamespace then s.through? binding q.name else none

def Symbols.attempt? (s : Symbols) (q : Query) : Rule → Option String
  | .imported => s.viaImport? q
  | .member => s.viaNamespace? q
  | .sameFile => s.only? q.name (some q.file)
  | .unique => if isBuiltin q.name then none else s.only? q.name none

/-- The target of a call, by the first rule that finds one. -/
def Symbols.resolve? (s : Symbols) (q : Query) : Option Resolution :=
  Rule.all.findSome? fun rule => (s.attempt? q rule).map fun target => ⟨target, rule⟩

end LoadBearing.Scope
