import LoadBearing.Data.Table
import LoadBearing.Files.File
import LoadBearing.Path.Basic

/-! # File trees

The files below one directory.  A *place* is the list of names that leads from that directory to a
file or to a directory.  A directory is there if it was made, or if something is in it.
-/

namespace LoadBearing

/-- Names that lead down a file tree. -/
abbrev Place := List String

def Place.text (place : Place) : String := "/".intercalate place

def Place.ofText (path : String) : Place :=
  (Text.split '/' path).filter fun segment => segment ≠ "" && segment ≠ "."

def Place.le : Place → Place → Bool
  | [], _ => true
  | _ :: _, [] => false
  | left :: lefts, right :: rights =>
    if left = right then Place.le lefts rights else textLe left right

inductive AccessError where
  | missing
  | notADirectory
  | isADirectory
  | tooManyLinks
  /-- the file is there, but holds no text -/
  | notText
  deriving DecidableEq, Repr

def AccessError.message : AccessError → String
  | .missing => "No such file or directory (os error 2)"
  | .notADirectory => "Not a directory (os error 20)"
  | .isADirectory => "Is a directory (os error 21)"
  | .tooManyLinks => "Too many levels of symbolic links (os error 40)"
  | .notText => "stream did not contain valid UTF-8"

structure FileTree where
  files : List (Place × File) := []
  directories : List Place := []
  deriving Repr

namespace FileTree

def file? (tree : FileTree) (place : Place) : Option File := tree.files.lookup place

def isDirectory (tree : FileTree) (place : Place) : Bool :=
  place.isEmpty || tree.directories.any place.isPrefixOf
    || tree.files.any fun entry => place.isPrefixOf entry.1 && place ≠ entry.1

def has (tree : FileTree) (place : Place) : Bool :=
  (tree.file? place).isSome || tree.isDirectory place

def maxLinks : Nat := 40

/-- Follows the steps of a path from a place, and links on the way. -/
def follow (tree : FileTree) (links : Nat) (place : Place) (steps : List Path.Component) :
    Except AccessError Place :=
  match steps with
  | [] => .ok place
  | .root :: _ => .error .missing
  | .here :: rest => follow tree links place rest
  | .up :: rest => follow tree links place.dropLast rest
  | .name name :: rest =>
    let next := place ++ [name]
    match tree.file? next with
    | none => if tree.isDirectory next then follow tree links next rest else .error .missing
    | some file =>
      if file.kind = .link then
        match links, file.text? with
        | 0, _ => .error .tooManyLinks
        | _, none => .error .missing
        | links + 1, some target => follow tree links place (Path.components target ++ rest)
      else if rest.isEmpty then .ok next
      else .error .notADirectory
termination_by (links, steps.length)

def locate (tree : FileTree) (place : Place) (path : String) : Except AccessError Place :=
  tree.follow maxLinks place (Path.components path)

def put (tree : FileTree) (place : Place) (file : File) : FileTree :=
  { tree with files := (tree.files.filter fun entry => entry.1 ≠ place) ++ [(place, file)] }

def erase (tree : FileTree) (place : Place) : FileTree :=
  { tree with files := tree.files.filter fun entry => entry.1 ≠ place }

def makeDirectory (tree : FileTree) (place : Place) : FileTree :=
  { tree with directories := tree.directories ++ [place] }

def isBlocked (tree : FileTree) (place : Place) : Bool :=
  (List.range place.length).any fun count => (tree.file? (place.take count)).isSome

/-- Writes a file into a directory that is there. -/
def write (tree : FileTree) (place : Place) (file : File) : Except AccessError FileTree :=
  if tree.isBlocked place then .error .notADirectory
  else if !tree.isDirectory place.dropLast then .error .missing
  else if tree.isDirectory place then .error .isADirectory
  else .ok (tree.put place file)

/-- Writes a file and makes the directories that it needs. -/
def writeDeep (tree : FileTree) (place : Place) (file : File) : Except AccessError FileTree :=
  (tree.makeDirectory place.dropLast).write place file

/-- The files right in a directory, by name. -/
def filesIn (tree : FileTree) (directory : Place) : Table File :=
  Table.ofList (tree.files.filterMap fun (place, file) =>
    match place.getLast? with
    | some name => if place.dropLast = directory then some (name, file) else none
    | none => none)

end FileTree

end LoadBearing
