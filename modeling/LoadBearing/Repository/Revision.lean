import LoadBearing.Repository.Basic
import LoadBearing.Text.Split

/-! # Revisions

A revision is the name of a commit followed by steps: `~n` goes back `n` commits on the main line,
`^n` goes to the `n`-th parent, and `^0` and `~0` stay.  Without a number a step counts one.
-/

namespace LoadBearing

namespace Repository

/-! ## Names -/

/-- The commits that a name can mean, in the order in which they are tried: the head, then tags, then
    branches.  A name may be written in full. -/
def named? (repository : Repository) (name : String) : Option Version := do
  let inTags := fun short => repository.tags.find? short
  let inBranches := fun short => repository.branches.find? short
  let below := fun start => Text.dropStart? name start
  let id ←
    (if name = "HEAD" then repository.head else none)
      <|> (below "refs/tags/").bind inTags
      <|> (below "refs/heads/").bind inBranches
      <|> (below "tags/").bind inTags
      <|> (below "heads/").bind inBranches
      <|> inTags name
      <|> inBranches name
  repository.version? id

/-! ## Steps -/

inductive Back where
  /-- so many commits back on the main line -/
  | line (count : Nat)
  /-- to the parent with this number, counted from one -/
  | parent (number : Nat)
  deriving DecidableEq, Repr

def backOnLine (repository : Repository) : Nat → Version → Option Version
  | 0, version => some version
  | count + 1, version => do
    let parent ← version.parents.head?
    backOnLine repository count (← repository.version? parent)

def stepBack (repository : Repository) (version : Version) : Back → Option Version
  | .line count => repository.backOnLine count version
  | .parent 0 => some version
  | .parent (number + 1) => version.parents[number]?.bind repository.version?

/-- The number at the start of some characters, one if there is none, and what follows it. -/
def countAt (cs : List Char) : Nat × List Char :=
  let digits := cs.takeWhile Char.isDigit
  if digits.isEmpty then (1, cs)
  else
    (digits.foldl (fun n c => n * 10 + (c.toNat - '0'.toNat)) 0, cs.drop digits.length)

theorem length_countAt (cs : List Char) : (countAt cs).2.length ≤ cs.length := by
  simp only [countAt]
  split <;> simp

def steps? : List Char → Option (List Back)
  | [] => some []
  | '~' :: rest => (steps? (countAt rest).2).map (.line (countAt rest).1 :: ·)
  | '^' :: rest => (steps? (countAt rest).2).map (.parent (countAt rest).1 :: ·)
  | _ => none
termination_by cs => cs.length
decreasing_by all_goals have := length_countAt rest; simp only [List.length_cons]; omega

def startsStep (c : Char) : Bool := c = '~' || c = '^'

def resolve? (repository : Repository) (revision : String) : Option Version := do
  let cs := revision.toList
  let name := cs.takeWhile fun c => !startsStep c
  let steps ← steps? (cs.drop name.length)
  let start ← repository.named? (String.ofList name)
  steps.foldlM repository.stepBack start

end Repository

end LoadBearing
