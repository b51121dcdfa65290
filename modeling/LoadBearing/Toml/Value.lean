/-! # Values of settings files

A settings file is a table of values.  Numbers with a point and dates are told apart from other
values, but nothing asks for their amount.
-/

namespace LoadBearing

inductive Toml where
  | boolean (value : Bool)
  | integer (value : Int)
  /-- a number with a point or an exponent -/
  | float
  /-- a date, a time or both -/
  | datetime
  | string (text : String)
  | array (items : List Toml)
  | table (fields : List (String × Toml))
  deriving Repr

namespace Toml

/-- A reader takes what it understands from the start of a text and gives back the rest. -/
abbrev Reads (α : Type) := List Char → Option (α × List Char)

def isSpace (c : Char) : Bool := c = ' ' || c = '\t'

def skipSpaces (text : List Char) : List Char := text.dropWhile isSpace

def newline? : List Char → Option (List Char)
  | '\n' :: rest => some rest
  | '\r' :: '\n' :: rest => some rest
  | _ => none

/-- Whether a character may stand in a comment or a quoted text: no control character but the
    tab. -/
def isPlain (c : Char) : Bool := c = '\t' || (0x20 ≤ c.toNat && c.toNat ≠ 0x7F)

/-- The rest after a comment, if the text starts with one. -/
def skipComment (text : List Char) : List Char :=
  match text with
  | '#' :: rest => rest.dropWhile isPlain
  | _ => text

/-- The rest after the end of a line: blanks, perhaps a comment, and a line break or the end. -/
def endOfLine? (text : List Char) : Option (List Char) :=
  match skipComment (skipSpaces text) with
  | [] => some []
  | rest => newline? rest

end Toml

end LoadBearing
