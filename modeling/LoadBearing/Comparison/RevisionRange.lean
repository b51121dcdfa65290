import LoadBearing.Text.Blank
import LoadBearing.Text.Split

/-! # Ranges of revisions

Two revisions to compare, written `base..head`, `base...head` or, with the current revision as the
head, `base`.
-/

namespace LoadBearing

structure RevisionRange where
  base : String
  head : String
  deriving DecidableEq, Repr

structure RangeError where
  text : String
  deriving DecidableEq, Repr

def RangeError.message (e : RangeError) : String :=
  s!"invalid ref range '{e.text}': expected <base>..<head>, <base>...<head> or <base>"

namespace RevisionRange

/-- The revision that a lone base is compared with. -/
def current : String := "HEAD"

def isSide (text : String) : Bool :=
  text ≠ "" && (Text.cut? ".." text).isNone && !Text.startsWith text "." && !Text.endsWith text "."

/-- The two sides of a text, whatever they are. -/
def sides (text : String) : String × String :=
  match Text.cut? "..." text with
  | some sides => sides
  | none => (Text.cut? ".." text).getD (text, current)

def parse (text : String) : Except RangeError RevisionRange :=
  let (base, head) := sides text
  if text = "" || text.toList.any Text.isBlank || !isSide base || !isSide head then .error ⟨text⟩
  else .ok ⟨base, head⟩

def display (range : RevisionRange) : String :=
  range.base ++ ".." ++ range.head

end RevisionRange

end LoadBearing
