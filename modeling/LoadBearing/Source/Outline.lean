import LoadBearing.CallGraph.Basic

/-! # The outline of a file

What the rest of the library knows about a source file: its function definitions, the calls written
inside them, the names it imports and its default export.
-/

namespace LoadBearing

/-- A call as written, inside the definition at position `caller`. -/
structure Site where
  caller : Nat
  name : String
  receiver : Option String
  line : Nat
  deriving DecidableEq, Repr

/-- What a local name of a file is bound to by an import. -/
structure Import where
  /-- the module as written -/
  specifier : String
  /-- the name on the other side, or `*` for the whole module -/
  exported : String
  isNamespace : Bool
  /-- the project file the specifier stands for -/
  file : Option String
  deriving DecidableEq, Repr

def Import.named (specifier exported : String) : Import :=
  ⟨specifier, exported, false, none⟩

def Import.whole (specifier : String) : Import :=
  ⟨specifier, "*", true, none⟩

structure Outline where
  file : String
  definitions : List Definition := []
  sites : List Site := []
  /-- the imports by local name -/
  imports : Table Import := []
  /-- the qualified name of the declared default export -/
  defaultExport : Option String := none
  deriving DecidableEq, Repr

/-- The outlines in the order of their files; files of one name keep their order. -/
def Outline.sortByFile (outlines : List Outline) : List Outline :=
  outlines.mergeSort fun left right => textLe left.file right.file

end LoadBearing
