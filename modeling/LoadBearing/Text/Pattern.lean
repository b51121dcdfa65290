import LoadBearing.Text.Fold
import LoadBearing.Text.Word

/-! # Patterns in a text

A pattern describes a stretch of text, letter case aside.  It is known by where it leads:
`Pattern.reach` lists every position that it can come to from a position.  A position knows the
character before it, since whether a word begins or ends there depends on both sides.
-/

namespace LoadBearing.Text

structure Position where
  /-- the character before it -/
  before : Option Char
  /-- the text from there on -/
  rest : List Char
  deriving DecidableEq, Repr

namespace Position

/-- Every position of a text that follows a character. -/
def all (before : Option Char) : List Char → List Position
  | [] => [⟨before, []⟩]
  | c :: rest => ⟨before, c :: rest⟩ :: all (some c) rest

def isEdge (p : Position) : Bool :=
  p.before.any isWordChar != p.rest.head?.any isWordChar

/-- The position after some letters, if they come next, case aside. -/
def past? : Position → List Char → Option Position
  | p, [] => some p
  | ⟨_, []⟩, _ :: _ => none
  | ⟨_, c :: rest⟩, letter :: letters =>
    if foldChar c = foldChar letter then past? ⟨some c, rest⟩ letters else none

end Position

/-- A description of a stretch of text. -/
inductive Pattern where
  /-- these letters -/
  | letters (text : String)
  /-- nothing, where a word begins or ends -/
  | edge
  /-- what the inner pattern describes, or nothing -/
  | optional (inner : Pattern)
  | either (one other : Pattern)
  | sequence (first next : Pattern)
  deriving DecidableEq, Repr

namespace Pattern

def word (inner : Pattern) : Pattern :=
  .sequence .edge (.sequence inner .edge)

def reach : Pattern → Position → List Position
  | .letters text, p => (p.past? text.toList).toList
  | .edge, p => if p.isEdge then [p] else []
  | .optional inner, p => inner.reach p ++ [p]
  | .either one other, p => one.reach p ++ other.reach p
  | .sequence first next, p => (first.reach p).flatMap next.reach

def occursIn (pattern : Pattern) (text : String) : Bool :=
  (Position.all none text.toList).any fun p => !(pattern.reach p).isEmpty

end Pattern

end LoadBearing.Text
