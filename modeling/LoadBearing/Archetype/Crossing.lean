import LoadBearing.Archetype.Detection

/-! # Routines between modules

Detectors of routines whose calls leave their module, or through which modules are connected.
-/

namespace LoadBearing.Detector

/-- Nothing with fewer calls that leave the module is a gossip by count. -/
def gossipFloor : Float := 3.0

def gossipRatio : Float := 0.8

/-- Fewer calls than this say nothing about where they go. -/
def fewestCalls : Nat := 3

/-- Many calls of the routine, or most of them, leave its module. -/
def gossip : Detector := fun e r => do
  let m ← e.graph.metrics? r.id
  let d := e.profile.crossFanOut
  let crossing := Float.ofNat m.crossFanOut
  let byCount := larger d.p90 gossipFloor ≤ crossing
  let byRatio := gossipRatio ≤ m.crossRatio && fewestCalls ≤ m.fanOut
  if !byCount && !byRatio then none
  let leaving := (e.graph.callsFrom r.id).filter Call.leavesModule
  let modules := homes e.graph (leaving.filterMap Call.target)
  let cross := s!"{m.crossFanOut} of its {m.fanOut} calls cross into other modules "
    ++ s!"({percent m.crossRatio})"
  let reaches := s!"Reaches into: {listed modules}"
  some (.of (0.6 * relativeRank crossing 0.0 d.max + 0.4 * m.crossRatio)
    ([cross] ++ if modules.isEmpty then [] else [reaches]))

def strangerRatio : Float := 0.75

/-- So many leaving calls are nothing strange yet. -/
def strangerFloor : Float := 2.0

/-- Nearly all calls of the routine leave its module. -/
def stranger : Detector := fun e r => do
  let m ← e.graph.metrics? r.id
  if m.fanOut < fewestCalls || m.crossRatio < strangerRatio then none
  let d := e.profile.crossFanOut
  let leave := s!"{percent m.crossRatio} of its calls leave module '{r.home}'"
  some (.of (m.crossRatio * relativeRank (Float.ofNat m.crossFanOut) strangerFloor d.max)
    [leave, "Possibly belongs in another module"])

def passageReason (p : Passage) : String :=
  let sharing := Decimal.nearestWord (1.0 / p.exclusivity)
  if sharing ≤ 1 then s!"Only path from {p.origin} to {p.destination}"
  else s!"One of {sharing} paths from {p.origin} to {p.destination}"

def bridge : Detector := fun e r => do
  let b ← e.bridges.find? r.id
  if b.score < Bridge.threshold then none
  some (.detailed b.score (b.passages.map passageReason) (.bridge b.passages))

end LoadBearing.Detector
