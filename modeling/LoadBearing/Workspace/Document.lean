import LoadBearing.Json.Access
import LoadBearing.Workspace.Basic

/-! # Workspaces as documents

A workspace written down: the files with their syntax trees, and the commits of the repository, each
with what it puts and deletes.  A commit starts from the files of its first parent, and without a
list of parents that is the commit before it.  The last commit is checked out, and the head.
-/

namespace LoadBearing

/-! ## Files -/

def TreeRow.ofJson (value : Json) : TreeRow :=
  match value.items with
  | [depth, kind, named, field, start, stop] =>
    ⟨depth.count, kind.text, named.count = 1, field.text, start.count, stop.count⟩
  | _ => ⟨0, "", false, "", 0, 0⟩

def Node.ofJson? (value : Json) : Option Node :=
  (value.given? "tree").bind fun rows => Node.ofRows? (rows.items.map TreeRow.ofJson)

def hexValue (c : Char) : Nat :=
  if c.isDigit then c.toNat - '0'.toNat else c.toNat - 'a'.toNat + 10

/-- The bytes that pairs of hexadecimal digits write. -/
def bytesOfHex : List Char → List UInt8
  | high :: low :: rest => UInt8.ofNat (hexValue high * 16 + hexValue low) :: bytesOfHex rest
  | _ => []

def File.ofJson (value : Json) : File where
  bytes :=
    match value.textAt? "hex" with
    | some hex => bytesOfHex hex.toList
    | none => (SourceText.ofString (value.textAt "source")).bytes
  kind :=
    match value.textAt "mode" with
    | "exec" => .executable
    | "link" => .link
    | _ => .plain
  tree := Node.ofJson? value

def SourceFile.ofJson (value : Json) : SourceFile :=
  ⟨value.textAt "path", value.textAt "source", Node.ofJson? value⟩

/-! ## Commits -/

namespace Repository

def filesAfter (before : Table File) (value : Json) : Table File :=
  let deleted := (value.itemsAt "del").map Json.text
  let kept := before.filter fun entry => !deleted.contains entry.1
  (value.itemsAt "put").foldl
    (fun files file => files.insert (file.textAt "path") (File.ofJson file)) kept

def commit (repository : Repository) (value : Json) : Repository :=
  let parents :=
    match value.given? "parents" with
    | some list => list.items.map Json.text
    | none => repository.head.toList
  let version : Version :=
    { id := value.textAt "id"
      parents := parents
      author := value.textAt "author"
      time := ((value.given? "time").map Json.whole).getD 0
      message := value.textAt "message"
      files := [] }
  let files := filesAfter (repository.filesBefore version) value
  { repository with
    versions := repository.versions ++ [{ version with files := files }]
    head := some version.id }

def namesOf (value : Json) (name : String) : Table String :=
  match value.given? name with
  | some names => Table.ofList (names.fields.map fun (key, id) => (key, id.text))
  | none => []

def ofJson? (value : Json) : Option Repository :=
  (value.given? "commits").map fun commits =>
    let repository := commits.items.foldl commit {}
    let branches := namesOf value "branches"
    { repository with
      branches := (repository.head.map fun id => branches.insert "main" id).getD branches
      tags := namesOf value "tags" }

def checkout (repository : Repository) : Table File :=
  match repository.head.bind repository.version? with
  | some version => version.files
  | none => []

end Repository

/-! ## The whole -/

/-- Puts a file into a tree by its description; where a link leads to a file, that file is
    written. -/
def FileTree.putJson (tree : FileTree) (value : Json) : FileTree :=
  let path := value.textAt "path"
  tree.put ((tree.locate [] path).toOption.getD (.ofText path)) (File.ofJson value)

def Workspace.ofJson (root : String) (value : Json) : Workspace :=
  let repository := Repository.ofJson? value
  let checkedOut := (repository.map Repository.checkout).getD []
  let tree : FileTree :=
    { files := checkedOut.map fun (path, file) => (.ofText path, file)
      directories := if repository.isSome then [[".git"]] else [] }
  let tree := (value.itemsAt "dirs").foldl
    (fun tree path => tree.makeDirectory (.ofText path.text)) tree
  let tree := (value.itemsAt "files").foldl FileTree.putJson tree
  { root := root, files := tree, repository := repository }

end LoadBearing
