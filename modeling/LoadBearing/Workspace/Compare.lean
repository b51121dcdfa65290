import LoadBearing.Workspace.Analyse

/-! # Comparison of two revisions

Both sides of a range are analysed, each with the history up to it, and compared.  Both are analysed
even if one of them cannot be, so what is kept of the other does not depend on it.
-/

namespace LoadBearing

inductive ComparisonError where
  | unresolved (path : String)
  | noRepository
  | unanalysed (revision : String)
  deriving DecidableEq, Repr

def ComparisonError.message : ComparisonError → String
  | .unresolved path => "Failed to resolve " ++ path
  | .noRepository => "git error"
  | .unanalysed revision => "Failed to analyse " ++ revision

namespace Workspace

/-- The snapshots of a revision below a directory; none if it cannot be analysed. -/
def snapshotsAt (w : Workspace) (repository : Repository) (directory : Place) (revision : String)
    (settings : Settings) (caching : Bool) : Option (Table Snapshot) × Workspace :=
  let sources? := do
    let filter ← (PathFilter.ofPatterns settings.ignore.paths).toOption
    repository.sources? revision directory.text Language.allExtensions filter
  match sources? with
  | none => (none, w)
  | some sources =>
    let (history, w) := w.fetchFor directory caching settings revision
    let report := Report.build (w.pathOf directory) (.ofFiles sources) history settings
    (some report.snapshots, w)

def compare (w : Workspace) (here : Place) (path : String) (range : RevisionRange)
    (settings : Settings) (caching : Bool) : Except ComparisonError Comparison × Workspace :=
  match w.locate here path, w.repository with
  | .error _, _ => (.error (.unresolved path), w)
  | .ok _, none => (.error .noRepository, w)
  | .ok directory, some repository =>
    let (before?, w) := w.snapshotsAt repository directory range.base settings caching
    let (after?, w) := w.snapshotsAt repository directory range.head settings caching
    match before?, after? with
    | none, _ => (.error (.unanalysed range.base), w)
    | some _, none => (.error (.unanalysed range.head), w)
    | some before, some after => (.ok (Comparison.compare range.base range.head before after), w)

end Workspace

end LoadBearing
