import LoadBearing.Files.File
import LoadBearing.History.Commit

/-! # Changed lines

A shortest way to turn one list of lines into another by dropping and adding lines, and the ranges of
lines it touches.  The scripts for all pairs of tails are built row by row, from the ends of the lists
towards their starts; lines that are equal are kept as early as possible.
-/

namespace LoadBearing

inductive LineEdit where
  | keep
  | drop
  | add
  deriving DecidableEq, Repr

/-- A list of edits with the number of those that change something. -/
structure LineScript where
  cost : Nat
  edits : List LineEdit
  deriving DecidableEq, Repr

namespace LineScript

variable {α : Type} [DecidableEq α]

def done : LineScript := ⟨0, []⟩

def keep (s : LineScript) : LineScript := ⟨s.cost, .keep :: s.edits⟩

def drop (s : LineScript) : LineScript := ⟨s.cost + 1, .drop :: s.edits⟩

def add (s : LineScript) : LineScript := ⟨s.cost + 1, .add :: s.edits⟩

def cheaper (left right : LineScript) : LineScript := if left.cost ≤ right.cost then left else right

/-- The scripts from nothing to each tail of the new lines. -/
def lastRow : List α → List LineScript
  | [] => [done]
  | _ :: rest =>
    let row := lastRow rest
    (row.headD done).add :: row

/-- The scripts from an old line and those after it to each tail of the new lines, given the scripts
    from the old lines after it. -/
def nextRow (old : α) : List α → List LineScript → List LineScript
  | [], below => [(below.headD done).drop]
  | new :: rest, below =>
    let row := nextRow old rest below.tail
    let best :=
      if old = new then (below.tail.headD done).keep
      else cheaper (below.headD done).drop (row.headD done).add
    best :: row

/-- A shortest script from old lines to new lines. -/
def between (old new : List α) : LineScript :=
  (old.foldr (fun line below => nextRow line new below) (lastRow new)).headD done

end LineScript

/-! ## Ranges -/

/-- A stretch of changed lines: the number of new lines before it and in it. -/
structure Stretch where
  before : Nat
  added : Nat
  deriving DecidableEq, Repr

/-- The stretches of a script.  `line` counts the new lines so far; `current` is the stretch that is
    still open. -/
def stretches (line : Nat) (current : Option Stretch) : List LineEdit → List Stretch
  | [] => current.toList
  | .keep :: rest => current.toList ++ stretches (line + 1) none rest
  | .drop :: rest => stretches line (some (current.getD ⟨line, 0⟩)) rest
  | .add :: rest =>
    let stretch := current.getD ⟨line, 0⟩
    stretches (line + 1) (some { stretch with added := stretch.added + 1 }) rest

/-- The range of a stretch.  Where lines were only dropped it is the line before them, or the first
    line. -/
def Stretch.range (s : Stretch) : LineRange :=
  if s.added = 0 then ⟨max s.before 1, max s.before 1⟩ else ⟨s.before + 1, s.before + s.added⟩

/-- The ranges of lines that differ between two versions of a file, in the numbering of the new
    one; none if one of them holds no lines. -/
def File.changedRanges (old : Option File) (new : File) : List LineRange :=
  let previous := old.filter fun file => decide (file.kind = .link) = decide (new.kind = .link)
  if new.hasZero || previous.any File.hasZero then []
  else
    let lines := (previous.map File.lines).getD []
    (stretches 0 none (LineScript.between lines new.lines).edits).map Stretch.range

end LoadBearing
