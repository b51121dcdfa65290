import LoadBearing.Decimal.Shortest

/-! # Reports as trees

`Json` is the shape of every machine-readable report.  Fields keep the order in which they are
given.  A number is kept as the text it is written with, so writing never rounds.
-/

namespace LoadBearing

inductive Json where
  | null
  | bool (value : Bool)
  /-- a number, as written -/
  | number (text : String)
  | string (text : String)
  | array (items : List Json)
  | object (fields : List (String × Json))
  deriving Repr

namespace Json

def nat (n : Nat) : Json := .number (toString n)

def int (n : Int) : Json := .number (toString n)

/-- A number in the fewest digits; nothing for what is not finite. -/
def float (x : Float) : Json :=
  match Decimal.text? x with
  | some text => .number text
  | none => .null

def strings (texts : List String) : Json := .array (texts.map .string)

def optional {α : Type} (encode : α → Json) : Option α → Json
  | some value => encode value
  | none => .null

/-- A field that is left out when there is no value. -/
def fieldIf {α : Type} (name : String) (encode : α → Json) : Option α → List (String × Json)
  | some value => [(name, encode value)]
  | none => []

def field? (value : Json) (name : String) : Option Json :=
  match value with
  | .object fields => fields.lookup name
  | _ => none

end Json

end LoadBearing
