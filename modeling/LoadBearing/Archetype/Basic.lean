import LoadBearing.Text.Blank
import LoadBearing.Text.Split

/-! # Archetypes

The characters that a routine can play in a code base.  A routine may play several at once.
-/

namespace LoadBearing

inductive Archetype where
  /-- very many calls depend on it -/
  | boss
  /-- long, branching and calling much -/
  | workhorse
  /-- calls into many other modules -/
  | gossip
  /-- nothing calls it -/
  | hermit
  /-- nearly all its calls leave its module -/
  | stranger
  /-- many parameters and much to do -/
  | overloaded
  /-- substantial, but hardly called -/
  | ghost
  /-- a large share of its commits are fixes -/
  | crisisPoint
  /-- changes together with another routine -/
  | codependent
  /-- the only path, or nearly, between two modules -/
  | bridge
  deriving DecidableEq, Repr

namespace Archetype

/-- All archetypes, in the order in which they are listed. -/
def all : List Archetype :=
  [ .boss, .workhorse, .gossip, .hermit, .stranger, .overloaded, .ghost, .crisisPoint, .codependent,
    .bridge ]

def word : Archetype → String
  | .boss => "boss"
  | .workhorse => "workhorse"
  | .gossip => "gossip"
  | .hermit => "hermit"
  | .stranger => "stranger"
  | .overloaded => "overloaded"
  | .ghost => "ghost"
  | .crisisPoint => "crisis_point"
  | .codependent => "codependent"
  | .bridge => "bridge"

def label : Archetype → String
  | .boss => "The Boss"
  | .workhorse => "The Workhorse"
  | .gossip => "The Gossip"
  | .hermit => "The Hermit"
  | .stranger => "The Stranger"
  | .overloaded => "The Overloaded"
  | .ghost => "The Ghost"
  | .crisisPoint => "The Crisis Point"
  | .codependent => "The Codependent"
  | .bridge => "The Bridge"

/-- Whether a routine that becomes one is more of a risk than before. -/
def isConcerning : Archetype → Bool
  | .hermit | .ghost | .bridge => false
  | _ => true

/-- A character of a name, with case and separators evened out. -/
def evenChar (c : Char) : Char :=
  if c = '-' || c = ' ' then '_' else c.toLower

/-- The archetype named by a word or a title, whatever its case and separators. -/
def parse? (text : String) : Option Archetype :=
  let name := String.ofList ((Text.trim text).toList.map evenChar)
  let name := (Text.dropStart? name "the_").getD name
  all.find? fun archetype => archetype.word = name

end Archetype

end LoadBearing
