import LoadBearing.Archetype.Detection

/-! # Routines with a past

Detectors that look at the history of a routine.  They find nothing when there is no history.
-/

namespace LoadBearing.Detector

/-- Fewer commits than this say nothing about a routine. -/
def crisisCommits : Nat := 5

def crisisRatio : Float := 0.4

/-- Many of the commits that touch the routine are fixes. -/
def crisisPoint : Detector := fun e r => do
  let log ← e.log
  let a ← log.activity? r.id
  let ratio := a.fixRatio
  let authors := a.authors.length
  if a.commits < crisisCommits || ratio < crisisRatio then none
  let fixes := s!"{a.fixes} of the {a.commits} commits touching it were fixes ({percent ratio})"
  let changed := s!"Changed by {authors} different authors"
  some (.detailed (0.4 + 0.6 * relativeRank ratio crisisRatio 1.0)
    ([fixes] ++ if 2 < authors then [changed] else []) (.crisisPoint a.commits a.fixes authors))

def codependentFloor : Float := 0.5

/-- The routine tends to change together with another one. -/
def codependent : Detector := fun e r => do
  let log ← e.log
  let c ← log.inseparable? ratio codependentFloor r.id e.minTogether
  let changed := s!"Changed together with {c.id} in {c.together} commits "
    ++ s!"({percent c.correlation} of the less active one's changes)"
  some (.detailed (relativeRank c.correlation codependentFloor 1.0) [changed]
    (.codependent c.id c.correlation c.together))

end LoadBearing.Detector
