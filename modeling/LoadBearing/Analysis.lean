import LoadBearing.Archetype.Classify
import LoadBearing.CallGraph.Build
import LoadBearing.Cluster
import LoadBearing.Comparison.Compare
import LoadBearing.Data.Number
import LoadBearing.Settings
import LoadBearing.Source.Language

/-! # Analysis

From the outlines of the files of a code base to everything that is said about it.  The history is
optional: without it the findings that need one are missing, and nothing else changes.
-/

namespace LoadBearing

/-- The commits of a repository with the directory that their paths start from. -/
structure History where
  root : String
  commits : List Commit
  deriving DecidableEq, Repr

structure Report where
  files : Nat
  /-- a line for each file that could not be read -/
  failures : List String
  graph : CallGraph
  profile : Profile
  findings : Table (List Finding)
  clusters : List Cluster
  bridges : List Bridge
  log : Option ActivityLog

structure ReportSummary where
  files : Nat
  failures : Nat
  routines : Nat
  calls : Nat
  resolved : Nat
  unresolved : Nat
  crossing : Nat
  modules : Nat
  rules : List (Rule × Nat)
  archetypes : List (Archetype × Nat)
  clusters : Nat
  multiModuleClusters : Nat
  bridges : Nat
  deriving DecidableEq, Repr

namespace Report

def logOf (g : CallGraph) (analysed : String) (settings : Settings) (history : History) :
    ActivityLog :=
  ActivityLog.correlate g (PathIndex.build g analysed history.root) history.commits
    settings.history.maxRoutines

def build (analysed : String) (batch : Batch) (history : Option History) (settings : Settings) :
    Report :=
  let graph := CallGraph.build batch.outlines
  let profile := Profile.of graph
  let bridges := Bridge.all graph
  let log := history.map (logOf graph analysed settings)
  let evidence : Evidence :=
    { graph := graph
      profile := profile
      log := log
      bridges := Evidence.indexBridges bridges
      minTogether := settings.history.minTogether }
  { files := batch.outlines.length
    failures := batch.failures
    graph := graph
    profile := profile
    findings := Finding.all (Archetype.enabled settings.disabled) evidence
    clusters := settings.clusters.run graph
    bridges := bridges
    log := log }

def findingsAbout (r : Report) (id : String) : List Finding :=
  (r.findings.find? id).getD []

/-- How many findings there are of each archetype; archetypes without any are left out. -/
def archetypeCounts (r : Report) : List (Archetype × Nat) :=
  Archetype.all.filterMap fun archetype =>
    let count := total (r.findings.map fun entry =>
      entry.2.countP fun finding => finding.archetype = archetype)
    if count = 0 then none else some (archetype, count)

def summary (r : Report) : ReportSummary where
  files := r.files
  failures := r.failures.length
  routines := r.graph.routines.length
  calls := r.graph.calls.length
  resolved := r.graph.resolvedCalls.length
  unresolved := r.graph.unresolvedCount
  crossing := r.graph.calls.countP Call.leavesModule
  modules := r.graph.modules.length
  rules := r.graph.ruleCounts
  archetypes := r.archetypeCounts
  clusters := r.clusters.length
  multiModuleClusters := r.clusters.countP Cluster.isMultiModule
  bridges := r.bridges.length

/-- Surer findings first, then in order of identity. -/
def playerLe (left right : String × Finding) : Bool :=
  if Decimal.orderKey left.2.confidence = Decimal.orderKey right.2.confidence then
    textLe left.1 right.1
  else Decimal.le right.2.confidence left.2.confidence

def players (r : Report) (archetype : Archetype) : List (String × Finding) :=
  let found := r.findings.filterMap fun entry =>
    (entry.2.find? fun finding => finding.archetype = archetype).map (Prod.mk entry.1)
  found.mergeSort playerLe

def snapshots (r : Report) : Table Snapshot :=
  Snapshot.all r.graph fun id => (r.findingsAbout id).map Finding.archetype

end Report

end LoadBearing
