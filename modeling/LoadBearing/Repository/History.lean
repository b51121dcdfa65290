import LoadBearing.History.Commit
import LoadBearing.Repository.LineDiff
import LoadBearing.Repository.Revision

/-! # The history of a repository

The commits that can be reached from a revision: each before its parents, and otherwise the newest
first.  Commits with several parents are passed over, since what they change was changed by others.
-/

namespace LoadBearing

namespace Repository

/-! ## Order -/

/-- The commits that can be reached from some commits, nearest first. -/
def reachable (repository : Repository) : Nat → List Version → List Version → List Version
  | 0, seen, _ => seen
  | fuel + 1, seen, frontier =>
    let next := (frontier.flatMap repository.parentsOf).foldl
      (fun found version =>
        if (seen ++ found).any fun other => other.id = version.id then found else found ++ [version])
      ([] : List Version)
    if next.isEmpty then seen else reachable repository fuel (seen ++ next) next

def tips (versions : List Version) : List Version :=
  versions.filter fun version => !versions.any fun other => other.parents.contains version.id

def newest? : List Version → Option Version
  | [] => none
  | version :: rest =>
    match newest? rest with
    | some other => some (if version.time < other.time then other else version)
    | none => some version

/-- Lists commits by always taking the newest of those that no other one left follows. -/
def inOrder : Nat → List Version → List Version
  | 0, _ => []
  | fuel + 1, versions =>
    match newest? (tips versions) with
    | none => []
    | some version =>
      version :: inOrder fuel (versions.filter fun other => other.id ≠ version.id)

def log (repository : Repository) (start : Version) : List Version :=
  let versions := repository.reachable repository.versions.length [start] [start]
  inOrder versions.length versions

/-! ## Commits -/

def changes (repository : Repository) (version : Version) : List FileChange :=
  let before := repository.filesBefore version
  let table := version.files.foldl (fun (table : Table (List LineRange)) (path, file) =>
    match File.changedRanges (before.find? path) file with
    | [] => table
    | ranges =>
      let path := path.map fun c => if c = '\\' then '/' else c
      table.update path fun old => old.getD [] ++ ranges) []
  table.map fun (path, ranges) => ⟨path, ranges⟩

/-- The message of a commit without the line feeds it may start with. -/
def messageOf (version : Version) : String :=
  String.ofList (version.message.toList.dropWhile fun c => c = '\n')

def commitOf (repository : Repository) (version : Version) : Commit where
  hash := version.id
  author := version.author
  date := version.time
  title := ((Text.lines (messageOf version)).head?).getD ""
  isFix := isFixMessage (messageOf version)
  changes := repository.changes version

def commits (repository : Repository) (start : Version) (limit : Nat) : List Commit :=
  (((repository.log start).filter fun version => version.parents.length ≤ 1).take limit).map
    repository.commitOf

/-- The history from a revision on, for paths that start at `root`. -/
def history (repository : Repository) (root revision : String) : HistorySource where
  root := root
  start :=
    match repository.resolve? revision with
    | some version => .ok version.id
    | none => .error .unreadable
  commits limit :=
    match repository.resolve? revision with
    | some version => .ok (repository.commits version limit)
    | none => .error .unreadable

end Repository

end LoadBearing
