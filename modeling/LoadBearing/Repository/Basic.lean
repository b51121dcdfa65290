import LoadBearing.Data.Table
import LoadBearing.Files.File

/-! # Repositories

The commits of a repository, each with all files as it left them, and the names of commits: branches,
tags and the head.  The files of a commit are a table by path, so a later commit can be compared with
an earlier one path by path.
-/

namespace LoadBearing

/-- A commit with the files as it left them. -/
structure Version where
  id : String
  /-- the commits that it follows, the main line first -/
  parents : List String
  author : String
  /-- seconds since the epoch -/
  time : Int
  message : String
  files : Table File
  deriving Repr

structure Repository where
  versions : List Version := []
  branches : Table String := []
  tags : Table String := []
  /-- the commit that is checked out; none before the first commit -/
  head : Option String := none
  deriving Repr

namespace Repository

def version? (repository : Repository) (id : String) : Option Version :=
  repository.versions.find? fun version => version.id = id

def parentsOf (repository : Repository) (version : Version) : List Version :=
  version.parents.filterMap repository.version?

/-- The files of the first parent; none for a first commit. -/
def filesBefore (repository : Repository) (version : Version) : Table File :=
  match version.parents.head?.bind repository.version? with
  | some parent => parent.files
  | none => []

end Repository

end LoadBearing
