import LoadBearing.Archetype.Detection

/-! # Routines that carry much

Detectors of routines that many calls depend on, that do much themselves, or that take many
parameters.
-/

namespace LoadBearing.Detector

/-- Nothing with fewer incoming calls is a boss. -/
def bossFloor : Float := 5.0

/-- The routine is called from at least as many places as nearly all others. -/
def boss : Detector := fun e r => do
  let m ← e.graph.metrics? r.id
  let d := e.profile.fanIn
  let threshold := larger d.p95 bossFloor
  let fanIn := Float.ofNat m.fanIn
  if fanIn < threshold then none
  let callers := e.graph.directCallers r.id
  let modules := homes e.graph callers
  let reach := (e.graph.transitiveCallers r.id none).length
  let called := s!"Called from {m.fanIn} call sites (p95 for this code base is {whole d.p95})"
  let delegates := s!"Delegates little: calls {m.fanOut} functions itself while {m.fanIn} calls "
    ++ "depend on it"
  let spans := s!"Callers span {modules.length} modules: {listed modules}"
  let reached := s!"{reach} functions reach it transitively"
  some (.of (0.5 + 0.5 * relativeRank fanIn threshold d.max)
    ([called]
      ++ (if m.fanOut * 3 ≤ m.fanIn then [delegates] else [])
      ++ (if 1 < modules.length then [spans] else [])
      ++ (if callers.length < reach then [reached] else [])))

def isHigh (value : Nat) (d : Distribution) : Bool :=
  0.0 < Float.ofNat value && d.p85 ≤ Float.ofNat value

def heightAbove (floor : Float) (value : Nat) (d : Distribution) : Float :=
  relativeRank (Float.ofNat value) floor d.max

/-- The routine is among the largest in at least two of decisions, calls and lines. -/
def workhorse : Detector := fun e r => do
  let m ← e.graph.metrics? r.id
  let decisions := e.profile.complexity
  let calls := e.profile.fanOut
  let lines := e.profile.length
  let branching := s!"Cyclomatic complexity {m.complexity} (p85 is {whole decisions.p85})"
  let calling := s!"Makes {m.fanOut} calls (p85 is {whole calls.p85})"
  let long := s!"{m.length} lines long (p85 is {whole lines.p85})"
  let reasons :=
    (if isHigh m.complexity decisions then [branching] else [])
      ++ (if isHigh m.fanOut calls then [calling] else [])
      ++ (if isHigh m.length lines then [long] else [])
  if reasons.length < 2 then none
  some (.of (0.4 * heightAbove decisions.p85 m.complexity decisions
      + 0.3 * heightAbove calls.p85 m.fanOut calls
      + 0.3 * heightAbove lines.p85 m.length lines) reasons)

def paramFloor : Float := 4.0

/-- The routine takes many parameters and branches or calls much. -/
def overloaded : Detector := fun e r => do
  let m ← e.graph.metrics? r.id
  let params := e.profile.params
  let decisions := e.profile.complexity
  let calls := e.profile.fanOut
  if Float.ofNat m.params < larger params.p90 paramFloor then none
  let busy := decisions.p75 ≤ Float.ofNat m.complexity || calls.p75 ≤ Float.ofNat m.fanOut
  if !busy then none
  let takes := s!"Takes {m.params} parameters (p90 is {whole params.p90})"
  let carries := s!"Also carries complexity {m.complexity} and {m.fanOut} outgoing calls"
  some (.of (0.5 * heightAbove params.p50 m.params params
      + 0.3 * heightAbove decisions.p50 m.complexity decisions
      + 0.2 * heightAbove calls.p50 m.fanOut calls) [takes, carries])

end LoadBearing.Detector
