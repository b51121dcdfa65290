import LoadBearing.Text.Split

/-! # Paths

A path is a text; what it denotes is its list of components.  Empty segments and `.` are no
components, except that a relative path may start with `.`.  The root is a component of its own, so
`/a` has two.  All comparison of paths goes through components.
-/

namespace LoadBearing.Path

inductive Component where
  | root
  | here
  | up
  | name (text : String)
  deriving DecidableEq, Repr

def Component.text : Component → String
  | .root => "/"
  | .here => "."
  | .up => ".."
  | .name text => text

def ofSegment? (segment : String) : Option Component :=
  if segment = "" || segment = "." then none
  else if segment = ".." then some .up
  else some (.name segment)

def components (path : String) : List Component :=
  let segments := Text.split '/' path
  let steps := segments.filterMap ofSegment?
  if Text.startsWith path "/" then .root :: steps
  else if segments.head? = some "." then .here :: steps
  else steps

/-- The last component, if it is a name. -/
def fileName? (path : String) : Option String :=
  match (components path).getLast? with
  | some (.name text) => some text
  | _ => none

/-- What follows the last dot of the file name; a dot that starts the name does not count. -/
def extension? (path : String) : Option String := do
  let name ← fileName? path
  let (stem, extension) ← Text.cutLast? '.' name
  if stem = "" then none else some extension

def ofComponents (steps : List Component) : String :=
  "/".intercalate (steps.map Component.text)

def below? (directory path : String) : Option (List Component) :=
  let outer := components directory
  let inner := components path
  if outer.isPrefixOf inner then some (inner.drop outer.length) else none

/-- A path as seen from a directory; a path outside the directory keeps all its components. -/
def relativeTo (directory path : String) : String :=
  ofComponents ((below? directory path).getD (components path))

def isStep (segment : String) : Bool :=
  (ofSegment? segment).isSome

/-- Drops the first `count` steps, and all that is no step around them. -/
def dropSteps (count : Nat) : List String → List String
  | [] => []
  | segment :: rest =>
    if isStep segment then
      match count with
      | 0 => segment :: rest
      | count + 1 => dropSteps count rest
    else dropSteps count rest

/-- What is written of a path below a directory, if it lies below it: as `below?`, but with the
    segments between two steps as they stand. -/
def tailBelow? (directory path : String) : Option String :=
  (below? directory path).map fun _ =>
    let segments := Text.split '/' path
    let leads := Text.startsWith path "/" || segments.head? = some "."
    let body := if leads then segments.tail else segments
    let body := (body.reverse.dropWhile fun segment => !isStep segment).reverse
    match components directory with
    | [] => "/".intercalate (if leads then segments.take 1 ++ body else body)
    | outer => "/".intercalate (dropSteps (outer.length - if leads then 1 else 0) body)

/-- A path followed from a directory; an absolute path stands for itself. -/
def join (directory path : String) : String :=
  if Text.startsWith path "/" then path
  else if directory = "" || Text.endsWith directory "/" then directory ++ path
  else directory ++ "/" ++ path

def textOf : List Component → String
  | .root :: rest => "/" ++ ofComponents rest
  | steps => ofComponents steps

/-- A path and the directories above it as far as its text goes, innermost first. -/
def ancestors (path : String) : List String :=
  let steps := components path
  let least := if steps.head? = some .root then 1 else 0
  let above := (List.range (steps.length - least)).reverse.map fun count =>
    textOf (steps.take (least + count))
  path :: above

end LoadBearing.Path
