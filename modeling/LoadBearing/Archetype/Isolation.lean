import LoadBearing.Archetype.Detection
import LoadBearing.Text.Fold

/-! # Routines that are hardly called

Detectors of routines with no or next to no incoming calls.  A routine that is likely called from
outside the analysed code is suspected only a little.
-/

namespace LoadBearing.Detector

/-- Names of routines that something outside starts. -/
def starterNames : List String :=
  ["main", "init", "setup", "bootstrap", "start", "run", "default", "handler", "middleware"]

def reactionStarts : List String := ["handle", "on", "route"]

/-- Request methods, in any case. -/
def requestNames : List String :=
  ["get", "post", "put", "patch", "delete", "head", "options", "all"]

/-- Whether a name is one of the given starts followed by a capital letter or an underscore. -/
def isReaction (name : String) : Bool :=
  reactionStarts.any fun start =>
    match (Text.dropStart? name start).map String.toList with
    | some (c :: _) => c.isUpper || c = '_'
    | _ => false

def isEntryPoint (r : Routine) : Bool :=
  r.form = .anonymous || starterNames.contains r.name || isReaction r.name
    || requestNames.any fun name => Text.sameLetters r.name.toList name.toList

/-- The most confidence that a likely entry point is uncalled. -/
def entryPointCap : Float := 0.3

/-- No call leads to the routine. -/
def hermit : Detector := fun e r =>
  if 0 < e.graph.fanIn r.id then none
  else
    let d := e.profile.length
    let confidence := 0.6 + 0.4 * relativeRank (Float.ofNat r.length) d.p50 d.max
    let uncalled := "No calls to it were found in the analysed code"
    if isEntryPoint r then
      let why :=
        if r.form = .anonymous then "Anonymous callback, likely invoked by a framework or runtime"
        else "Name suggests an entry point that may be invoked from outside"
      some (.of (if confidence < entryPointCap then confidence else entryPointCap) [uncalled, why])
    else some (.of confidence [uncalled, s!"{r.length} lines that may be dead code"])

/-- Only one or two calls lead to a routine that is not small. -/
def ghost : Detector := fun e r => do
  let m ← e.graph.metrics? r.id
  let decisions := e.profile.complexity
  let complexity := Float.ofNat m.complexity
  if m.fanIn < 1 || 2 < m.fanIn then none
  if complexity < decisions.p50 && Float.ofNat m.length < e.profile.length.p50 then none
  let reached := s!"Only reached from: {listed (e.graph.directCallers r.id)}"
  let size := s!"Complexity {m.complexity} over {m.length} lines for a single path of use"
  some (.of (0.4 + 0.4 * relativeRank complexity decisions.p50 decisions.max) [reached, size])

end LoadBearing.Detector
