import LoadBearing.Path.Basic

/-! # The module of a file

Files are grouped into modules by their path: the first directory that is more than a container
names the module, and a file below containers only is a module of its own.
-/

namespace LoadBearing.Path

/-- Directories that hold modules without being one. -/
def containers : List String := ["src", "lib", "app", "source", "packages"]

/-- A file name up to its first dot, unless it starts with one. -/
def stem (name : String) : String :=
  match Text.cut? "." name with
  | some (before, _) => if before = "" then name else before
  | none => name

def moduleOf (path : String) : String :=
  let segments := (Text.split '/' path).filter (· ≠ "")
  match segments.getLast? with
  | none => ""
  | some name =>
    match segments.dropLast.find? (fun directory => !containers.contains directory) with
    | some directory => directory
    | none => stem name

end LoadBearing.Path
