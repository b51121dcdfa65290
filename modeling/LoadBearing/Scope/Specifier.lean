import LoadBearing.Text.Split

/-! # Module specifiers

A specifier names a file of the project, possibly without its extension, relative to the importing
file or to the project root.  `resolve?` probes the project's files in a fixed order.
-/

namespace LoadBearing.Scope

/-- The extensions tried for a specifier without one, in order. -/
def sourceExtensions : List String := ["ts", "tsx", "mts", "cts", "js", "jsx", "mjs", "cjs"]

/-- Follows segments from a directory given by its segments, innermost first; none when the way
    leads above the root. -/
def follow? (trail : List String) : List String → Option (List String)
  | [] => some trail
  | segment :: rest =>
    if segment = "" || segment = "." then follow? trail rest
    else if segment = ".." then
      match trail with
      | [] => none
      | _ :: above => follow? above rest
    else follow? (segment :: trail) rest

/-- A path without empty, `.` and `..` segments; none when it leads above the root. -/
def normalize? (path : String) : Option String :=
  (follow? [] (Text.split '/' path)).map fun trail => "/".intercalate trail.reverse

/-- The paths a normalised specifier may stand for, in the order in which they are probed. -/
def candidates (base : String) : List String :=
  base :: sourceExtensions.map (base ++ "." ++ ·)
    ++ sourceExtensions.map fun extension =>
      if base = "" then "index." ++ extension else base ++ "/index." ++ extension

def isRelative (specifier : String) : Bool :=
  Text.startsWith specifier "./" || Text.startsWith specifier "../"

/-- The path a specifier spells, before it is normalised. -/
def spelled (specifier importer : String) : String :=
  if isRelative specifier then
    match Text.cutLast? '/' importer with
    | some (directory, _) => directory ++ "/" ++ specifier
    | none => specifier
  else Text.trimStartOf '/' specifier

def resolve? (files : List String) (specifier importer : String) : Option String := do
  let base ← normalize? (spelled specifier importer)
  (candidates base).find? files.contains

end LoadBearing.Scope
