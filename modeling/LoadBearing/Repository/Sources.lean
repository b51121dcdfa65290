import LoadBearing.Ignore.Filter
import LoadBearing.Repository.Revision
import LoadBearing.Source.Language

/-! # Source files of a revision

The files below a directory as a revision has them, without a checkout.  Files that hold no text are
passed over.
-/

namespace LoadBearing

/-- The path below a directory; every path is below the empty one. -/
def pathBelow? (directory path : String) : Option String :=
  if directory = "" then some path
  else (Text.dropStart? path directory).bind fun rest => Text.dropStart? rest "/"

def sourcesIn (directory : String) (extensions : List String) (filter : PathFilter)
    (files : Table File) : List SourceFile :=
  let directory := Text.trimEndsOf (· = '/') directory
  files.filterMap fun (path, file) => do
    let path ← pathBelow? directory path
    if endsInExtension extensions path && !filter.ignores path && !file.looksBinary then
      some ⟨path, ← file.text?, file.tree⟩
    else none

/-- The source files of a revision; none if there is no such revision. -/
def Repository.sources? (repository : Repository) (revision directory : String)
    (extensions : List String) (filter : PathFilter) : Option (List SourceFile) :=
  (repository.resolve? revision).map fun version =>
    sourcesIn directory extensions filter version.files

def unresolvedMessage (revision : String) : String :=
  "Failed to resolve git ref '" ++ revision ++ "'"

def noRepositoryMessage : String := "Failed to open git repository for blob reading"

end LoadBearing
