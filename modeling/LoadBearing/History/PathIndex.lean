import LoadBearing.CallGraph.Graph

/-! # The files that commits speak of

The paths of commits start from the root of the repository, those of the call graph from the
analysed directory.  A `PathIndex` knows each file of the graph by its absolute path, by its path in
the graph and by its path in the repository, so that the two roots may differ.
-/

namespace LoadBearing

/-- The path in the call graph for each path that a commit may use. -/
structure PathIndex where
  known : Table String
  deriving Repr

namespace PathIndex

def key (path : String) : String :=
  String.ofList (path.toList.map fun c => if c = '\\' then '/' else c)

/-- Adds all the ways to write the path of one file. -/
def add (analysed repository : String) (known : Table String) (file : String) : Table String :=
  let absolute := Path.join analysed file
  let known := (known.insert (key absolute) file).insert file file
  match Path.tailBelow? repository absolute with
  | some path => known.insert (key path) file
  | none => known

def build (g : CallGraph) (analysed repository : String) : PathIndex :=
  ⟨g.files.foldl (add analysed repository) []⟩

/-- Whether one path is the end of the other, cut at a slash. -/
def endsAt (long short : String) : Bool :=
  Text.endsWith long ("/" ++ short)

/-- The file of the graph that a commit means: the one known by that path, else the first known path
    that ends in it or that it ends in. -/
def resolve? (index : PathIndex) (file : String) : Option String :=
  match index.known.find? file with
  | some found => some found
  | none =>
    (List.find? (fun entry => endsAt entry.1 file || endsAt file entry.1) index.known).map Prod.snd

end PathIndex

end LoadBearing
