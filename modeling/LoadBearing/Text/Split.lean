/-! # Cutting texts

`split` cuts at every occurrence of one character and `cut?` once, at the first occurrence of a
mark.  Both are written on character lists, where nothing is lost: the pieces of `split` joined by
the separator, and the two sides of `cut?` joined by the mark, give the text back.
-/

namespace LoadBearing.Text

/-- The pieces between the occurrences of `sep`; a list with `n` separators has `n + 1` pieces. -/
def splitChars (sep : Char) : List Char → List (List Char)
  | [] => [[]]
  | c :: rest =>
    if c = sep then [] :: splitChars sep rest
    else
      match splitChars sep rest with
      | [] => [[c]]
      | piece :: pieces => (c :: piece) :: pieces

def split (sep : Char) (text : String) : List String :=
  (splitChars sep text.toList).map String.ofList

/-- What stands before and after the first occurrence of `mark`. -/
def cutChars? (mark : List Char) : List Char → Option (List Char × List Char)
  | [] => none
  | c :: rest =>
    if mark.isPrefixOf (c :: rest) then some ([], (c :: rest).drop mark.length)
    else (cutChars? mark rest).map fun (before, after) => (c :: before, after)

def cut? (mark text : String) : Option (String × String) :=
  (cutChars? mark.toList text.toList).map fun (before, after) =>
    (String.ofList before, String.ofList after)

def cutLastChars? (sep : Char) : List Char → Option (List Char × List Char)
  | [] => none
  | c :: rest =>
    match cutLastChars? sep rest with
    | some (before, after) => some (c :: before, after)
    | none => if c = sep then some ([], rest) else none

/-- What stands before and after the last occurrence of `sep`. -/
def cutLast? (sep : Char) (text : String) : Option (String × String) :=
  (cutLastChars? sep text.toList).map fun (before, after) =>
    (String.ofList before, String.ofList after)

def startsWith (text start : String) : Bool :=
  start.toList.isPrefixOf text.toList

def endsWith (text tail : String) : Bool :=
  tail.toList.isSuffixOf text.toList

def dropStart? (text start : String) : Option String :=
  if startsWith text start then some (String.ofList (text.toList.drop start.toList.length))
  else none

def trimStartOf (c : Char) (text : String) : String :=
  String.ofList (text.toList.dropWhile (· = c))

def trimEndsOf (drop : Char → Bool) (text : String) : String :=
  String.ofList ((text.toList.dropWhile drop).reverse.dropWhile drop).reverse

/-- A line without the carriage return that ended it. -/
def dropReturn (line : List Char) : List Char :=
  if line.getLast? = some '\r' then line.dropLast else line

/-- The lines of a text: cut at line feeds, a carriage return before one dropped, no line after a
    final line feed. -/
def lines (text : String) : List String :=
  let pieces := splitChars '\n' text.toList
  let ended := pieces.dropLast.map dropReturn
  let last := pieces.getLastD []
  (if last = [] then ended else ended ++ [last]).map String.ofList

end LoadBearing.Text
