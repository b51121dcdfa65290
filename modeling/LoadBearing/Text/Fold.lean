/-! # Letter case

Two texts have the same letters when they agree after case folding.  Every comparison of this
library has plain Latin letters on one side, so the fold only has to send to a plain small letter
what folds to one: the capitals, the long s and the Kelvin sign.
-/

namespace LoadBearing.Text

/-- The small letter a character folds to, or the character itself. -/
def foldChar (c : Char) : Char :=
  if c = 'ſ' then 's'
  else if c = 'K' then 'k'
  else c.toLower

/-- Whether two character lists agree letter by letter, case aside. -/
def sameLetters (left right : List Char) : Bool :=
  left.map foldChar == right.map foldChar

end LoadBearing.Text
