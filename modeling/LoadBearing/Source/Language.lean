import LoadBearing.Source.Walk

/-! # Files of a code base

Which files can be read, and the outlines of many files at once.  A file that cannot be read still
counts, with an empty outline and a line that says why.  The results do not depend on the order in
which the files come.
-/

namespace LoadBearing

inductive Language where
  | javascript
  | typescript
  deriving DecidableEq, Repr

namespace Language

def name : Language → String
  | .javascript => "javascript"
  | .typescript => "typescript"

def extensions : Language → List String
  | .javascript => [".js", ".jsx", ".mjs", ".cjs"]
  | .typescript => [".ts", ".tsx", ".mts", ".cts"]

def all : List Language := [.javascript, .typescript]

def allExtensions : List String := all.flatMap extensions

def ofPath? (path : String) : Option Language := do
  let extension ← Path.extension? path
  all.find? fun language => language.extensions.contains ("." ++ extension)

end Language

def hasExtension (extensions : List String) (path : String) : Bool :=
  match Path.extension? path with
  | some extension => extensions.contains ("." ++ extension)
  | none => false

/-- Whether what follows the last dot of a path is one of some extensions and holds no slash. -/
def endsInExtension (extensions : List String) (path : String) : Bool :=
  match Text.cutLast? '.' path with
  | some (_, extension) => !extension.toList.contains '/' && extensions.contains ("." ++ extension)
  | none => false

structure SourceFile where
  path : String
  text : String
  tree : Option Node := none
  deriving Repr

inductive ReadError where
  /-- no language has files with this extension -/
  | unsupported (extension : String)
  | unreadable (reason : String)
  deriving DecidableEq, Repr

def ReadError.message : ReadError → String
  | .unsupported extension => "Unsupported language: " ++ extension
  | .unreadable reason => "Failed to read file: " ++ reason

def Outline.ofFile (f : SourceFile) : Except ReadError Outline :=
  match Language.ofPath? f.path with
  | none => .error (.unsupported ((Path.extension? f.path).getD "unknown"))
  | some _ =>
    match f.tree with
    | some root => .ok (.ofTree f.path (.ofString f.text) root)
    | none => .ok { file := f.path }

/-- The outlines of some files, with a line for each that could not be read. -/
structure Batch where
  outlines : List Outline
  failures : List String
  deriving DecidableEq, Repr

namespace Batch

/-- The outline of a file, empty if it could not be read. -/
def outlineOf (result : String × Except ReadError Outline) : Outline :=
  match result.2 with
  | .ok outline => outline
  | .error _ => { file := result.1 }

def failure? (result : String × Except ReadError Outline) : Option String :=
  match result.2 with
  | .ok _ => none
  | .error e => some (result.1 ++ ": " ++ e.message)

/-- Collects the results for some paths, in the order of the paths. -/
def collect (results : List (String × Except ReadError Outline)) : Batch where
  outlines := Outline.sortByFile (results.map outlineOf)
  failures := (results.filterMap failure?).mergeSort textLe

def ofFiles (files : List SourceFile) : Batch :=
  collect (files.map fun f => (f.path, Outline.ofFile f))

end Batch

end LoadBearing
