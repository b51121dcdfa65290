import LoadBearing.Files.FileTree
import LoadBearing.Ignore.Filter
import LoadBearing.Source.Language

/-! # Finding source files

The source files below a directory.  Hidden entries, entries that an ignore file names and entries
that the patterns of the settings exclude are left out, with all that is below them.  The directory
itself is never left out.

Ignore files count in every directory from the entry's own up to the top of the tree.  Those of
version control count only inside a repository, and only up to the directory that holds it.
-/

namespace LoadBearing

/-- The nonempty starts of a path that follow a directory: the entries on the way to a file. -/
def Place.onTheWay (place : Place) (depth : Nat) : List Place :=
  (List.range (place.length - depth)).map fun count => place.take (depth + count + 1)

/-- A directory and all above it, innermost first. -/
def Place.upwards (directory : Place) : List Place :=
  (List.range (directory.length + 1)).reverse.map fun count => directory.take count

namespace FileTree

/-! ## Ignore files -/

/-- A line without the line feed that ends it and a carriage return before that. -/
def withoutEnd (line : List UInt8) : List UInt8 :=
  if line.getLast? = some SourceText.lineFeed then
    let line := line.dropLast
    if line.getLast? = some 13 then line.dropLast else line
  else line

/-- The lines of an ignore file, up to the first that is no text. -/
def ignoreLines (file : File) : List String :=
  let texts := (file.lines.map fun line => SourceText.decode? (withoutEnd line)).takeWhile
    Option.isSome
  match texts.filterMap id with
  | [] => []
  | first :: rest => Text.trimStartOf '\ufeff' first :: rest

/-- The rules of the ignore file at a place; none if there is no such file. -/
def rulesAt (tree : FileTree) (place : Place) : List IgnoreRule :=
  match tree.locate [] place.text with
  | .error _ => []
  | .ok target =>
    match tree.file? target with
    | none => []
    | some file => IgnoreRule.ofLines (ignoreLines file)

def verdictIn? (tree : FileTree) (name : Place) (entry : Place) (isDirectory : Bool)
    (directory : Place) : Option Bool :=
  IgnoreRule.verdict? (tree.rulesAt (directory ++ name))
    (Place.text (entry.drop directory.length)) isDirectory

def holdsRepository (tree : FileTree) (directory : Place) : Bool := tree.has (directory ++ [".git"])

/-- The directories whose ignore files of version control count, innermost first: those up to the
    one that holds the repository, or none outside a repository. -/
def tracked (tree : FileTree) (directories : List Place) : List Place :=
  if directories.any tree.holdsRepository then
    let inside := directories.takeWhile fun directory => !tree.holdsRepository directory
    directories.take (inside.length + 1)
  else []

/-- What the ignore files say about an entry.  A file nearer to the entry comes before one further
    up, and one sort of ignore file before the next. -/
def ignored? (tree : FileTree) (entry : Place) (isDirectory : Bool) : Option Bool :=
  let directories := Place.upwards entry.dropLast
  let inside := tree.tracked directories
  let verdict (name : Place) (directories : List Place) : Option Bool :=
    directories.findSome? (tree.verdictIn? name entry isDirectory)
  (verdict [".ignore"] directories).or
    ((verdict [".gitignore"] inside).or (verdict [".git", "info", "exclude"] inside))

def isHidden (entry : Place) : Bool :=
  match entry.getLast? with
  | some name => Text.startsWith name "."
  | none => false

end FileTree

/-! ## Files that are found -/

/-- Whether the patterns of the settings leave out a path, or a directory on the way to it. -/
def PathFilter.prunes (filter : PathFilter) (path : Place) : Bool :=
  (path.onTheWay 0).any fun entry => filter.excludes entry.text (entry ≠ path)

namespace FileTree

def hides (tree : FileTree) (entry : Place) (isDirectory : Bool) : Bool :=
  match tree.ignored? entry isDirectory with
  | some verdict => verdict
  | none => isHidden entry

/-- Whether a file below a directory is found: nothing on the way to it is left out. -/
def finds (tree : FileTree) (directory : Place) (filter : PathFilter) (place : Place) : Bool :=
  directory.isPrefixOf place && !filter.prunes (place.drop directory.length)
    && (place.onTheWay directory.length).all fun entry => !tree.hides entry (entry ≠ place)

def discover (tree : FileTree) (directory : Place) (extensions : List String)
    (filter : PathFilter) : List Place :=
  let found := tree.files.filterMap fun (place, file) =>
    if file.kind ≠ .link && hasExtension extensions place.text
        && tree.finds directory filter place then
      some place
    else none
  found.mergeSort Place.le

end FileTree

end LoadBearing
