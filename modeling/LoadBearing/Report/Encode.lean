import LoadBearing.Analysis
import LoadBearing.Json.Writer
import LoadBearing.Program

/-! # Reports for machines

The trees that reports, comparisons and their parts are written as.
-/

namespace LoadBearing.Encode

def version : String := programVersion

def distribution (d : Distribution) : Json :=
  .object
    [ ("p50", .float d.p50), ("p75", .float d.p75), ("p85", .float d.p85), ("p90", .float d.p90),
      ("p95", .float d.p95), ("max", .float d.max), ("mean", .float d.mean),
      ("count", .nat d.count) ]

def profile (p : Profile) : Json :=
  .object
    [ ("fan_in", distribution p.fanIn), ("fan_out", distribution p.fanOut),
      ("complexity", distribution p.complexity), ("lines_of_code", distribution p.length),
      ("params", distribution p.params), ("cross_module_fan_out", distribution p.crossFanOut),
      ("cross_module_ratio", distribution p.crossRatio) ]

def metrics (m : Metrics) : Json :=
  .object
    [ ("fan_in", .nat m.fanIn), ("fan_out", .nat m.fanOut),
      ("cross_module_fan_out", .nat m.crossFanOut), ("cross_module_ratio", .float m.crossRatio),
      ("complexity", .nat m.complexity), ("lines_of_code", .nat m.length),
      ("params", .nat m.params) ]

/-! ## Graphs -/

def routine (r : Routine) : Json :=
  .object
    [ ("id", .string r.id), ("name", .string r.name), ("owner", .optional .string r.owner),
      ("rel_path", .string r.file), ("module", .string r.home), ("line", .nat r.line),
      ("end_line", .nat r.endLine), ("params", .nat r.params), ("complexity", .nat r.complexity),
      ("kind", .string r.form.word) ]

def call (c : Call) : Json :=
  .object
    ([ ("from", .string c.source), ("to", .optional .string c.target),
       ("callee_name", .string c.name) ]
      ++ Json.fieldIf "callee_object" .string c.receiver
      ++ [ ("resolved", .bool c.resolved), ("cross_module", .bool c.crosses),
           ("file", .string c.file), ("line", .nat c.line) ]
      ++ Json.fieldIf "strategy" (fun (rule : Rule) => .string rule.word) c.rule)

def rules (counts : List (Rule × Nat)) : Json :=
  .object (counts.map fun (rule, count) => (rule.word, .nat count))

def graph (g : CallGraph) : Json :=
  .object
    [ ("functions", .array (g.routines.map routine)), ("edges", .array (g.calls.map call)),
      ("strategies", rules g.ruleCounts), ("modules", .strings g.modules),
      ("files", .strings g.files), ("unresolved", .nat g.unresolvedCount) ]

/-! ## Findings -/

def passage (p : Passage) : Json :=
  .object
    [ ("from_module", .string p.origin), ("to_module", .string p.destination),
      ("exclusivity", .float p.exclusivity) ]

def bridge (b : Bridge) : Json :=
  .object
    [ ("id", .string b.id), ("module", .string b.home), ("score", .float b.score),
      ("pairs", .array (b.passages.map passage)) ]

def cluster (c : Cluster) : Json :=
  .object
    [ ("id", .nat c.id), ("label", .string c.label), ("members", .strings c.members),
      ("size", .nat c.size), ("modules", .strings c.modules),
      ("multi_module", .bool c.isMultiModule), ("internal_edges", .nat c.internalEdges),
      ("density", .float c.density), ("hubs", .strings c.hubs) ]

def detail : Detail → Json
  | .plain => .object [("type", .string "none")]
  | .codependent partner correlation together =>
    .object
      [ ("type", .string "codependent"), ("partner", .string partner),
        ("correlation", .float correlation), ("co_commits", .nat together) ]
  | .crisisPoint commits fixes authors =>
    .object
      [ ("type", .string "crisis_point"), ("commits", .nat commits), ("fix_commits", .nat fixes),
        ("authors", .nat authors) ]
  | .bridge passages =>
    .object [("type", .string "bridge"), ("pairs", .array (passages.map passage))]

def finding (f : Finding) : Json :=
  .object
    [ ("archetype", .string f.archetype.word), ("label", .string f.archetype.label),
      ("confidence", .float f.confidence), ("reasons", .strings f.detection.reasons),
      ("detail", detail f.detection.detail) ]

def findings (table : Table (List Finding)) : Json :=
  .object (table.map fun (id, list) => (id, .array (list.map finding)))

/-! ## History -/

def activitySummary (s : ActivitySummary) : Json :=
  .object
    [ ("commits_analyzed", .nat s.commits), ("fix_commits", .nat s.fixes),
      ("broad_commits", .nat s.broad), ("functions_touched", .nat s.routinesTouched) ]

def activity (a : Activity) : Json :=
  .object
    [ ("commits", .nat a.commits), ("fix_commits", .nat a.fixes), ("authors", .strings a.authors),
      ("first_seen", .int a.firstSeen), ("last_seen", .int a.lastSeen),
      ("co_commits", .object (a.together.map fun (id, count) => (id, .nat count))) ]

def log (l : ActivityLog) : Json :=
  .object
    [ ("metrics", .object (l.activities.map fun (id, a) => (id, activity a))),
      ("summary", activitySummary l.summary) ]

def companion (c : ActivityLog.Companion Float) : Json :=
  .object
    [ ("id", .string c.id), ("correlation", .float c.correlation), ("co_commits", .nat c.together) ]

def hotspot (h : ActivityLog.Hotspot) : Json :=
  .object
    [ ("id", .string h.id), ("commits", .nat h.commits), ("fix_commits", .nat h.fixes),
      ("authors", .nat h.authors) ]

/-- How many routines with many fixes a report lists. -/
def hotspotCount : Nat := 25

/-! ## Reports -/

def summary (s : ReportSummary) : Json :=
  .object
    [ ("files", .nat s.files), ("parse_failures", .nat s.failures), ("functions", .nat s.routines),
      ("edges", .nat s.calls), ("resolved_edges", .nat s.resolved),
      ("unresolved_edges", .nat s.unresolved), ("cross_module_edges", .nat s.crossing),
      ("modules", .nat s.modules), ("resolution", rules s.rules),
      ("archetypes", .object (s.archetypes.map fun (a, count) => (a.word, .nat count))),
      ("clusters", .nat s.clusters), ("multi_module_clusters", .nat s.multiModuleClusters),
      ("bridges", .nat s.bridges) ]

def reportedRoutine (report : Report) (r : Routine) : Option Json :=
  (report.graph.metrics? r.id).map fun m =>
    .object
      [ ("id", .string r.id), ("name", .string r.qualified), ("file", .string r.file),
        ("line", .nat r.line), ("end_line", .nat r.endLine), ("module", .string r.home),
        ("metrics", metrics m), ("archetypes", .array ((report.findingsAbout r.id).map finding)) ]

def report (r : Report) : Json :=
  .object
    [ ("version", .string version), ("summary", summary r.summary), ("stats", profile r.profile),
      ("functions", .array (r.graph.routines.filterMap (reportedRoutine r))),
      ("clusters", .array (r.clusters.map cluster)), ("bridges", .array (r.bridges.map bridge)),
      ("git", .optional (fun l => .object
        [ ("summary", activitySummary l.summary),
          ("hotspots", .array ((l.hotspots hotspotCount).map hotspot)) ]) r.log),
      ("parse_errors", .strings r.failures) ]

/-! ## Comparisons -/

def archetypes (list : List Archetype) : Json :=
  .strings (list.map Archetype.word)

def snapshot (s : Snapshot) : Json :=
  .object
    [ ("key", .string s.key), ("id", .string s.id), ("rel_path", .string s.file),
      ("module", .string s.home), ("line", .nat s.line), ("complexity", .nat s.complexity),
      ("fan_in", .nat s.fanIn), ("fan_out", .nat s.fanOut),
      ("cross_module_fan_out", .nat s.crossFanOut), ("lines_of_code", .nat s.length),
      ("archetypes", archetypes s.archetypes) ]

def delta (d : Delta) : Json :=
  .object
    [ ("complexity", .int d.complexity), ("fan_in", .int d.fanIn), ("fan_out", .int d.fanOut),
      ("cross_module_fan_out", .int d.crossFanOut), ("lines_of_code", .int d.length) ]

def difference (d : Difference) : Json :=
  .object
    [ ("key", .string d.key), ("status", .string d.status),
      ("verdict", .optional (fun (v : Verdict) => .string v.word) d.verdict?),
      ("delta", delta d.delta), ("severity", .float d.severity), ("gained", archetypes d.gained),
      ("lost", archetypes d.lost), ("before", .optional snapshot d.before?),
      ("after", .optional snapshot d.after?) ]

def comparisonSummary (s : ComparisonSummary) : Json :=
  .object
    [ ("added", .nat s.added), ("removed", .nat s.removed), ("stressed", .nat s.stressed),
      ("improved", .nat s.improved), ("unchanged", .nat s.unchanged) ]

def comparisonFields (c : Comparison) : List (String × Json) :=
  [ ("before_ref", .string c.beforeName), ("after_ref", .string c.afterName),
    ("diffs", .array (c.differences.map difference)), ("summary", comparisonSummary c.summary) ]

def comparison (c : Comparison) : Json := .object (comparisonFields c)

def reportText (r : Report) : String := (report r).pretty

def comparisonText (c : Comparison) : String :=
  (Json.object (("version", .string version) :: comparisonFields c)).pretty

end LoadBearing.Encode
