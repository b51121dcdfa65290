import LoadBearing.CallGraph.Graph
import LoadBearing.Scope.Specifier
import LoadBearing.Scope.Symbols

/-! # From outlines to the call graph

All definitions of all files get their identities first; then every call is resolved against the
complete set.  Files are taken in the order of their names, so the graph depends on the outlines and
not on the order in which they arrive.

The non-trivial ingredient is `freshId`: an identity that is taken is lengthened by its line until it
is free, which ends because the taken identities that are at least as long become fewer.
-/

namespace LoadBearing.CallGraph

/-- A taken identity with its line appended. -/
def withLine (id : String) (line : Nat) : String :=
  id ++ "@L" ++ toString line

/-- The taken identities that are at least as long as the given one. -/
def rivals (taken : List String) (id : String) : List String :=
  taken.filter fun other => id.length ≤ other.length

theorem length_rivals_withLine_lt {taken : List String} {id : String} (line : Nat)
    (h : id ∈ taken) : (rivals taken (withLine id line)).length < (rivals taken id).length := by
  have longer : id.length < (withLine id line).length := by
    simp only [withLine, String.length_append]
    have : "@L".length = 2 := by decide
    omega
  have nested : rivals taken (withLine id line)
      = (rivals taken id).filter fun other => (withLine id line).length ≤ other.length := by
    simp only [rivals, List.filter_filter]
    congr 1
    funext other
    by_cases long : (withLine id line).length ≤ other.length
    · have : id.length ≤ other.length := by omega
      simp [long, this]
    · simp [long]
  rw [nested, List.length_filter_lt_length_iff_exists]
  refine ⟨id, ?_, ?_⟩
  · simp [rivals, h]
  · simp only [decide_eq_true_eq]
    omega

/-- The first identity that is free, of the given one and its lengthenings by the line. -/
def freshId (taken : List String) (line : Nat) (id : String) : String :=
  if _taken : id ∈ taken then freshId taken line (withLine id line) else id
termination_by (rivals taken id).length
decreasing_by exact length_rivals_withLine_lt line (by assumption)

def plainId (file : String) (d : Definition) : String :=
  file ++ "::" ++ d.qualified

def nameAll (file : String) : List String → List Definition → List String
  | _, [] => []
  | taken, d :: rest =>
    let id := freshId taken d.line (plainId file d)
    id :: nameAll file (id :: taken) rest

structure NamedOutline where
  outline : Outline
  ids : List String

def nameFiles : List String → List Outline → List NamedOutline
  | _, [] => []
  | taken, outline :: rest =>
    let ids := nameAll outline.file taken outline.definitions
    ⟨outline, ids⟩ :: nameFiles (ids ++ taken) rest

def NamedOutline.routines (n : NamedOutline) : List Routine :=
  n.ids.zipWith (fun id d => Routine.ofDefinition id n.outline.file d) n.outline.definitions

/-- The definition that a declared default export names: by its qualified name, else by its own. -/
def declaredDefault? (outline : Outline) : Option Nat := do
  let name ← outline.defaultExport
  (outline.definitions.findIdx? (·.qualified = name)).or
    (outline.definitions.findIdx? (·.name = name))

/-- The identity behind the default export: the declared one, else the first definition. -/
def NamedOutline.default? (n : NamedOutline) : Option String :=
  match declaredDefault? n.outline with
  | some position => n.ids[position]?
  | none => n.ids.head?

def defaultExports (named : List NamedOutline) : Table String :=
  named.foldl (fun table n =>
    match n.default? with
    | some id => table.insert n.outline.file id
    | none => table) []

def homes (routines : List Routine) : Table String :=
  routines.foldl (fun table r => table.insert r.id r.home) []

def resolveImports (files : List String) (outline : Outline) : Table Import :=
  outline.imports.map fun (name, binding) =>
    (name, { binding with file := Scope.resolve? files binding.specifier outline.file })

/-- The call for one call site; none if its caller is not a definition of the file. -/
def resolveSite? (symbols : Scope.Symbols) (homes : Table String) (imports : Table Import)
    (n : NamedOutline) (site : Site) : Option Call := do
  let source ← n.ids[site.caller]?
  let file := n.outline.file
  match symbols.resolve? ⟨file, site.name, site.receiver, imports⟩ with
  | some found =>
    let crosses := homes.find? source ≠ homes.find? found.target
    some (Call.known source found.target site.name site.receiver file site.line crosses found.rule)
  | none => some (Call.unknown source site.name site.receiver file site.line)

def build (outlines : List Outline) : CallGraph :=
  let named := nameFiles [] (Outline.sortByFile outlines)
  let routines := named.flatMap NamedOutline.routines
  let files := named.map (·.outline.file)
  let symbols := Scope.Symbols.build routines (defaultExports named)
  let homes := homes routines
  let calls := named.flatMap fun n =>
    n.outline.sites.filterMap (resolveSite? symbols homes (resolveImports files n.outline) n)
  ofParts routines calls

end LoadBearing.CallGraph
