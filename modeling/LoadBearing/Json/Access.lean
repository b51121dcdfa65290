import LoadBearing.Json.Basic

/-! # Looking into trees

Each function gives what a value is for a reader that knows what to expect.  A field that is null
counts as missing, and a value of another sort as an empty one.
-/

namespace LoadBearing.Json

/-- The value of a field, unless it is null. -/
def given? (value : Json) (name : String) : Option Json :=
  match value.field? name with
  | some .null => none
  | other => other

def text : Json → String
  | .string text => text
  | _ => ""

def count : Json → Nat
  | .number text => text.toNat?.getD 0
  | _ => 0

def whole : Json → Int
  | .number text => text.toInt?.getD 0
  | _ => 0

def flag : Json → Bool
  | .bool value => value
  | _ => false

def items : Json → List Json
  | .array items => items
  | _ => []

def fields : Json → List (String × Json)
  | .object fields => fields
  | _ => []

def textAt? (value : Json) (name : String) : Option String := (value.given? name).map text

/-- The text of a field, empty if it is missing. -/
def textAt (value : Json) (name : String) : String := (value.textAt? name).getD ""

def itemsAt (value : Json) (name : String) : List Json :=
  ((value.given? name).map items).getD []

end LoadBearing.Json
