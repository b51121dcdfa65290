import LoadBearing.Text.Pattern

/-! # Commits

What the history of a code base says about its lines: each commit lists, per file, the ranges of
lines it changed, in the numbering after the change.
-/

namespace LoadBearing

/-- A range of lines, both ends included. -/
structure LineRange where
  start : Nat
  stop : Nat
  deriving DecidableEq, Repr

structure FileChange where
  /-- the path from the root of the repository -/
  file : String
  ranges : List LineRange
  deriving DecidableEq, Repr

structure Commit where
  hash : String
  author : String
  /-- seconds since the epoch -/
  date : Int
  /-- the first line of the message -/
  title : String
  isFix : Bool
  changes : List FileChange
  deriving DecidableEq, Repr

open Text.Pattern in
/-- What the words look like that tell of a fix. -/
def fixPatterns : List Text.Pattern :=
  [ sequence (letters "fix")
      (optional (either (letters "es") (either (letters "ed") (letters "ing")))),
    sequence (letters "bug") (optional (letters "s")),
    letters "hotfix",
    letters "patch",
    letters "revert",
    letters "regression",
    sequence (letters "crash") (optional (either (letters "es") (letters "ed"))),
    letters "broken" ]

def isFixMessage (message : String) : Bool :=
  fixPatterns.any fun pattern => pattern.word.occursIn message

inductive HistoryError where
  /-- no repository holds the directory -/
  | notARepository (directory : String)
  /-- the repository could not be read -/
  | unreadable
  deriving DecidableEq, Repr

/-- A history that can be asked for its start and for its newest commits. -/
structure HistorySource where
  /-- the directory that the paths of the commits start from -/
  root : String
  /-- the commit that the history is read from -/
  start : Except HistoryError String
  /-- at most so many commits, newest first -/
  commits : Nat → Except HistoryError (List Commit)

end LoadBearing
