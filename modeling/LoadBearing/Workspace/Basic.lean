import LoadBearing.Files.Discover
import LoadBearing.Repository.History
import LoadBearing.Repository.Sources

/-! # Workspaces

A directory with its files and perhaps a repository in it.  Everything the program reads and writes
is in here, so what it does is a function of workspaces.  Paths are texts; an absolute path leads
somewhere only below the root of the workspace.
-/

namespace LoadBearing

/-- A directory with its files and perhaps a repository. -/
structure Workspace where
  /-- the absolute path of the directory -/
  root : String
  files : FileTree := {}
  repository : Option Repository := none

namespace Workspace

def pathOf (w : Workspace) (place : Place) : String :=
  if place.isEmpty then w.root else w.root ++ "/" ++ place.text

def locate (w : Workspace) (directory : Place) (path : String) : Except AccessError Place :=
  if Text.startsWith path "/" then
    match Path.below? w.root path with
    | some steps => w.files.follow FileTree.maxLinks [] steps
    | none => .error .missing
  else w.files.locate directory path

def read (w : Workspace) (directory : Place) (path : String) : Except AccessError File := do
  match w.files.file? (← w.locate directory path) with
  | some file => .ok file
  | none => .error .isADirectory

def outlineOf (path : String) : Except AccessError File → Except ReadError Outline
  | .error e => .error (.unreadable e.message)
  | .ok file =>
    match file.text? with
    | none => .error (.unreadable AccessError.notText.message)
    | some text => Outline.ofFile ⟨path, text, file.tree⟩

def readAll (w : Workspace) (paths : List String) : Batch :=
  .collect (paths.map fun path =>
    let shown := Path.relativeTo w.root (Path.join w.root path)
    (shown, outlineOf shown (w.read [] path)))

/-- The history from a revision on; none without a repository. -/
def history? (w : Workspace) (revision : String) : Option HistorySource :=
  w.repository.map fun repository => repository.history w.root revision

end Workspace

end LoadBearing
