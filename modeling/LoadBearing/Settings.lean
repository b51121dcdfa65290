import LoadBearing.Archetype.Basic
import LoadBearing.Cluster
import LoadBearing.Toml.Document
import LoadBearing.Toml.Writer

/-! # Settings

What a user can set for a code base, with the values that hold when nothing is set.  A settings file
may leave out any section and any setting; what it says beyond them is ignored.
-/

namespace LoadBearing

structure IgnoreSettings where
  /-- patterns of paths -/
  paths : List String :=
    [ "node_modules/", "vendor/", "dist/", "build/", "out/", "coverage/", ".next/", ".git/",
      "*.min.js", "*.d.ts", ".faultline-cache/" ]
  /-- words or titles of archetypes -/
  archetypes : List String := []
  deriving DecidableEq, Repr

structure HistorySettings where
  enabled : Bool := true
  /-- how many commits are read -/
  maxCommits : Nat := 300
  /-- a commit that touches more routines counts for no pair of them -/
  maxRoutines : Nat := 50
  /-- the fewest common commits that make a companion -/
  minTogether : Nat := 3
  /-- whether commits are kept for the next run -/
  cache : Bool := true
  deriving DecidableEq, Repr

structure OutputSettings where
  format : String := "terminal"
  color : Bool := true
  /-- how many items a part of a report lists; 0 for all -/
  maxItems : Nat := 15
  deriving DecidableEq, Repr

structure ComparisonSettings where
  failOnStressed : Bool := false
  deriving DecidableEq, Repr

deriving instance DecidableEq for ClusterSearch

structure Settings where
  ignore : IgnoreSettings := {}
  history : HistorySettings := {}
  clusters : ClusterSearch := {}
  output : OutputSettings := {}
  comparison : ComparisonSettings := {}
  deriving DecidableEq, Repr

inductive Format where
  | terminal
  | json
  deriving DecidableEq, Repr

namespace Settings

def fileName : String := ".faultline.toml"

/-- The archetypes that are not looked for; texts that name none are skipped. -/
def disabled (s : Settings) : List Archetype :=
  s.ignore.archetypes.filterMap Archetype.parse?

/-- The form of reports: the one asked for, else the one set. -/
def format (s : Settings) (asked : Option Format) : Format :=
  asked.getD (if s.output.format = "json" then .json else .terminal)

/-! ## Reading -/

/-- The settings of a section: a table by their names, or a list in their order. -/
def fields? (names : List String) : Toml → Option (List (String × Toml))
  | .table fields => some fields
  | .array items => some (names.zip items)
  | .datetime => some []
  | _ => none

def flag? : Toml → Option Bool
  | .boolean value => some value
  | _ => none

def count? : Toml → Option Nat
  | .integer value => if 0 ≤ value then some value.toNat else none
  | _ => none

def text? : Toml → Option String
  | .string text => some text
  | _ => none

def texts? : Toml → Option (List String)
  | .array items => items.mapM text?
  | _ => none

/-- The value of a setting: what is given, if it has the right type, else the default. -/
def get? {α : Type} (fields : List (String × Toml)) (name : String) (read : Toml → Option α)
    (default : α) : Option α :=
  match fields.lookup name with
  | some value => read value
  | none => some default

def ignore? (value : Toml) : Option IgnoreSettings := do
  let fields ← fields? ["paths", "archetypes"] value
  let d : IgnoreSettings := {}
  some
    { paths := ← get? fields "paths" texts? d.paths
      archetypes := ← get? fields "archetypes" texts? d.archetypes }

def history? (value : Toml) : Option HistorySettings := do
  let fields ← fields?
    ["enabled", "max_commits", "max_functions_per_commit", "min_co_commits", "cache"] value
  let d : HistorySettings := {}
  some
    { enabled := ← get? fields "enabled" flag? d.enabled
      maxCommits := ← get? fields "max_commits" count? d.maxCommits
      maxRoutines := ← get? fields "max_functions_per_commit" count? d.maxRoutines
      minTogether := ← get? fields "min_co_commits" count? d.minTogether
      cache := ← get? fields "cache" flag? d.cache }

def clusters? (value : Toml) : Option ClusterSearch := do
  let fields ← fields? ["min_size", "max_iterations"] value
  let d : ClusterSearch := {}
  some
    { minSize := ← get? fields "min_size" count? d.minSize
      maxPasses := ← get? fields "max_iterations" count? d.maxPasses }

def output? (value : Toml) : Option OutputSettings := do
  let fields ← fields? ["format", "color", "max_items"] value
  let d : OutputSettings := {}
  some
    { format := ← get? fields "format" text? d.format
      color := ← get? fields "color" flag? d.color
      maxItems := ← get? fields "max_items" count? d.maxItems }

def comparison? (value : Toml) : Option ComparisonSettings := do
  let fields ← fields? ["fail_on_stressed"] value
  let d : ComparisonSettings := {}
  some { failOnStressed := ← get? fields "fail_on_stressed" flag? d.failOnStressed }

/-- The settings that a document gives; none if a setting has the wrong type. -/
def ofToml? (document : Toml) : Option Settings := do
  let fields ← fields? ["ignore", "git", "clusters", "output", "diff"] document
  some
    { ignore := ← get? fields "ignore" ignore? {}
      history := ← get? fields "git" history? {}
      clusters := ← get? fields "clusters" clusters? {}
      output := ← get? fields "output" output? {}
      comparison := ← get? fields "diff" comparison? {} }

def read? (text : String) : Option Settings :=
  (Toml.read? text).bind ofToml?

/-! ## Writing -/

def sections (s : Settings) : List (String × List (String × Toml)) :=
  [ ("ignore",
      [ ("paths", .array (s.ignore.paths.map .string)),
        ("archetypes", .array (s.ignore.archetypes.map .string)) ]),
    ("git",
      [ ("enabled", .boolean s.history.enabled),
        ("max_commits", .integer s.history.maxCommits),
        ("max_functions_per_commit", .integer s.history.maxRoutines),
        ("min_co_commits", .integer s.history.minTogether),
        ("cache", .boolean s.history.cache) ]),
    ("clusters",
      [ ("min_size", .integer s.clusters.minSize),
        ("max_iterations", .integer s.clusters.maxPasses) ]),
    ("output",
      [ ("format", .string s.output.format),
        ("color", .boolean s.output.color),
        ("max_items", .integer s.output.maxItems) ]),
    ("diff", [("fail_on_stressed", .boolean s.comparison.failOnStressed)]) ]

/-- Writes a settings file; none if a count does not fit one. -/
def write? (s : Settings) : Option String :=
  Toml.write? s.sections

end Settings

end LoadBearing
