import LoadBearing.Analysis
import LoadBearing.Report.Style

/-! # Reports for people

A report or a comparison as lines for a terminal.  A limit of zero items means no limit.
-/

namespace LoadBearing.Terminal

open Detector (listed whole)
open Style (paint)

def joined (lines : List String) : String := "\n".intercalate lines ++ "\n"

def shown {α : Type} (limit : Nat) (items : List α) : List α :=
  if limit = 0 then items else items.take limit

def hidden {α : Type} (limit : Nat) (items : List α) : Nat :=
  if limit = 0 then 0 else items.length - limit

/-- A line that says how many items are not listed, if some are not. -/
def more (color : Bool) (indent : String) (count : Nat) : List String :=
  if count = 0 then [] else [indent ++ paint color [.dimmed] s!"... and {count} more"]

def percentColumn (confidence : Float) : String :=
  Decimal.padLeft 3 ' ' (whole (confidence * 100.0)) ++ "%"

/-! ## Reports -/

def headline (s : ReportSummary) : String :=
  s!"  {s.files} files · {s.routines} functions · {s.calls} calls ({s.resolved} resolved, "
    ++ s!"{s.crossing} cross-module) · {s.modules} modules"

def remark? (f : Finding) : Option String :=
  match f.detection.detail with
  | .codependent partner correlation together =>
    some (s!"changes with {partner} ({whole (correlation * 100.0)}% of commits, "
      ++ s!"{together} shared)")
  | _ => f.detection.reasons.head?

def player (color : Bool) (g : CallGraph) (entry : String × Finding) : List String :=
  let (id, f) := entry
  let name := ((g.routine? id).map Routine.qualified).getD id
  let place := ((g.routine? id).map fun r => s!"{r.file}:{r.line}").getD ""
  let sure := paint color [.bold] (percentColumn f.confidence)
  s!"    {sure} {name} {paint color [.dimmed] place}" ::
    (remark? f).toList.map fun remark => "         " ++ paint color [.dimmed] remark

/-- The lines about one archetype; none if nothing plays it. -/
def archetypePart (color : Bool) (limit : Nat) (r : Report) (archetype : Archetype) :
    List String :=
  let players := r.players archetype
  if players.isEmpty then []
  else
    let tint : Style := if archetype.isConcerning then .red else .cyan
    let title := s!"{archetype.label} ({players.length})"
    ["", "  " ++ paint color [.bold, tint] title]
      ++ (shown limit players).flatMap (player color r.graph)
      ++ more color "         " (hidden limit players)

def clusterLine (c : Cluster) : String :=
  s!"    #{c.id} {c.size} functions, density {Decimal.fixed 2 c.density} [{listed c.modules}] "
    ++ s!"hubs: {listed c.hubs}"

/-- The lines about clusters; none if there are none. -/
def clusterPart (color : Bool) (limit : Nat) (r : Report) : List String :=
  if r.clusters.isEmpty then []
  else
    let s := r.summary
    let title := s!"Clusters ({s.clusters}, {s.multiModuleClusters} spanning modules)"
    ["", "  " ++ paint color [.bold] title] ++ (shown limit r.clusters).map clusterLine

def hotspotLine (h : ActivityLog.Hotspot) : String :=
  s!"    {h.id} {h.commits} commits, {h.fixes} fixes, {h.authors} authors"

/-- The most routines with many fixes that are listed. -/
def hotspotLimit (limit : Nat) : Nat :=
  if limit = 0 then 5 else min limit 5

def historyPart (color : Bool) (limit : Nat) (log : Option ActivityLog) : List String :=
  match log with
  | some log =>
    let s := log.summary
    let title := s!"History: {s.commits} commits ({s.fixes} fixes, {s.broad} too broad for "
      ++ "co-change)"
    ["", "  " ++ paint color [.bold] title] ++ (log.hotspots (hotspotLimit limit)).map hotspotLine
  | none => ["", "  " ++ paint color [.dimmed] "No git history: history archetypes skipped"]

def report (color : Bool) (limit : Nat) (r : Report) : String :=
  let s := r.summary
  let failed := s!"{s.failures} file(s) could not be parsed (run with --verbose)"
  joined
    ([headline s]
      ++ (if s.failures = 0 then [] else ["  " ++ paint color [.yellow] failed])
      ++ Archetype.all.flatMap (archetypePart color limit r)
      ++ clusterPart color limit r
      ++ historyPart color limit r.log)

/-! ## Comparisons -/

def tag (d : Difference) : String × List Style :=
  match d.fate, d.verdict? with
  | .added _, _ => ("new", [.bold, .blue])
  | .removed _, _ => ("removed", [.dimmed])
  | .changed _ _, some .stressed => ("stressed", [.bold, .red])
  | .changed _ _, some .improved => ("improved", [.bold, .green])
  | .changed _ _, _ => ("changed", [])

def signed (n : Int) : String :=
  if n < 0 then toString n else "+" ++ toString n

def remarks (d : Difference) : List String :=
  let moves := [ ("complexity", d.delta.complexity), ("fan-out", d.delta.fanOut),
    ("fan-in", d.delta.fanIn), ("cross-module", d.delta.crossFanOut) ]
  (moves.filter fun move => move.2 ≠ 0).map (fun move => s!"{move.1} {signed move.2}")
    ++ d.gained.map (fun archetype => "+" ++ archetype.label)
    ++ d.lost.map (fun archetype => "-" ++ archetype.label)

def differenceLine (color : Bool) (d : Difference) : String :=
  let (word, styles) := tag d
  let column := paint color styles (Decimal.padRight 9 ' ' word)
  s!"    {column} {d.key} {paint color [.dimmed] (listed (remarks d))}"

def rule (color : Bool) : String :=
  "  " ++ paint color [.dimmed] (String.ofList (List.replicate 60 '─'))

def comparison (color : Bool) (limit : Nat) (c : Comparison) : String :=
  let s := c.summary
  let names := s!"  {paint color [.bold] c.beforeName} → {paint color [.bold] c.afterName}"
  let totals :=
    [ paint color [.red] s!"{s.stressed} stressed", paint color [.green] s!"{s.improved} improved",
      paint color [.blue] s!"{s.added} new", s!"{s.removed} removed",
      paint color [.dimmed] s!"{s.unchanged} unchanged" ]
  joined
    ([names]
      ++ (shown limit c.differences).map (differenceLine color)
      ++ more color "    " (hidden limit c.differences)
      ++ [rule color, "  " ++ " · ".intercalate totals])

end LoadBearing.Terminal
