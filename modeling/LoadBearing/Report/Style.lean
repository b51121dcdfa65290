import LoadBearing.Decimal.Fixed
import LoadBearing.Text.Split

/-! # Styled text

Text for a terminal with or without colours.  A style is a list of codes; with colours off it changes
nothing.
-/

namespace LoadBearing

inductive Style where
  | bold
  | dimmed
  | red
  | green
  | yellow
  | blue
  | cyan
  deriving DecidableEq, Repr

namespace Style

def code : Style → String
  | .bold => "1"
  | .dimmed => "2"
  | .red => "31"
  | .green => "32"
  | .yellow => "33"
  | .blue => "34"
  | .cyan => "36"

def sequence (codes : String) : String := "\x1b[" ++ codes ++ "m"

def reset : String := sequence "0"

/-- Puts `after` behind every copy of a mark in a text. -/
def insertAfter (mark after : List Char) : Nat → List Char → List Char
  | 0, text => text
  | fuel + 1, text =>
    match Text.cutChars? mark text with
    | some (front, rest) => front ++ mark ++ after ++ insertAfter mark after fuel rest
    | none => text

/-- A text in some styles, the weight before the colour.  Where the text itself ends all styles,
    they start again. -/
def paint (color : Bool) (styles : List Style) (text : String) : String :=
  if !color || styles.isEmpty then text
  else
    let start := sequence (";".intercalate (styles.map code))
    let inner := insertAfter reset.toList start.toList (text.length + 1) text.toList
    start ++ String.ofList inner ++ reset

end Style

end LoadBearing
