import LoadBearing.Analysis
import LoadBearing.Comparison.RevisionRange
import LoadBearing.History.Cache
import LoadBearing.Workspace.Basic

/-! # Analysis of a workspace

The report on the files below a directory, with the history of the repository that holds it.  Commits
that were read are kept in a hidden directory below the analysed one; that nothing can be kept there
changes nothing else.
-/

namespace LoadBearing

inductive AnalysisError where
  | unresolved (path : String)
  /-- a pattern of the settings is malformed -/
  | undiscovered
  deriving DecidableEq, Repr

def AnalysisError.message : AnalysisError → String
  | .unresolved path => "Failed to resolve " ++ path
  | .undiscovered => "Failed to discover source files"

namespace Workspace

/-! ## Commits that are kept -/

def cachePlace (directory : Place) : Place := directory ++ [CommitCache.directory, "commits"]

def cacheOf (w : Workspace) (directory : Place) : CommitCache :=
  (w.files.filesIn (cachePlace directory)).map fun (name, file) => (name, file.bytes)

/-- Writes a file of kept commits, if it can be written. -/
def keep (w : Workspace) (directory : Place) (name : String) (bytes : List UInt8) : Workspace :=
  match w.files.writeDeep (cachePlace directory ++ [name]) { bytes := bytes } with
  | .ok files => { w with files := files }
  | .error _ => w

/-- Writes what a cache holds beyond what it held before. -/
def keepNew (w : Workspace) (directory : Place) (before after : CommitCache) : Workspace :=
  (after.filter fun entry => before.find? entry.1 ≠ some entry.2).foldl
    (fun w entry => w.keep directory entry.1 entry.2) w

/-- The commits of a history, with the help of those kept for a directory if `caching`. -/
def fetch (w : Workspace) (directory : Place) (caching : Bool) (source : HistorySource)
    (limit : Nat) : Option History × Workspace :=
  let before := w.cacheOf directory
  let (commits, after) :=
    if caching then before.fetch source limit else (source.fetch limit, before)
  (commits.toOption.map fun commits => ⟨source.root, commits⟩, w.keepNew directory before after)

def fetchFor (w : Workspace) (directory : Place) (caching : Bool) (settings : Settings)
    (revision : String) : Option History × Workspace :=
  match if settings.history.enabled then w.history? revision else none with
  | none => (none, w)
  | some source => w.fetch directory caching source settings.history.maxCommits

/-! ## The analysis -/

def discover (w : Workspace) (directory : Place) (extensions patterns : List String) :
    Except GlobError (List Place) := do
  .ok (w.files.discover directory extensions (← PathFilter.ofPatterns patterns))

def outlines (w : Workspace) (directory : Place) (places : List Place) : Batch :=
  .collect (places.map fun place =>
    let path := Place.text (place.drop directory.length)
    (path, outlineOf path (w.read [] place.text)))

def analyseAt (w : Workspace) (directory : Place) (settings : Settings) (caching : Bool) :
    Except AnalysisError Report × Workspace :=
  match w.discover directory Language.allExtensions settings.ignore.paths with
  | .error _ => (.error .undiscovered, w)
  | .ok places =>
    let batch := w.outlines directory places
    let (history, w) := w.fetchFor directory caching settings RevisionRange.current
    (.ok (Report.build (w.pathOf directory) batch history settings), w)

def analyse (w : Workspace) (here : Place) (path : String) (settings : Settings) (caching : Bool) :
    Except AnalysisError Report × Workspace :=
  match w.locate here path with
  | .error _ => (.error (.unresolved path), w)
  | .ok directory => w.analyseAt directory settings caching

end Workspace

end LoadBearing
