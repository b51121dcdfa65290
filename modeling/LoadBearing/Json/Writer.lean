import LoadBearing.Json.Basic

/-! # Writing reports

Two layouts of one format: on one line, and over several lines with an indent of two blanks for each
level.  Only quotes, backslashes and control characters are escaped.
-/

namespace LoadBearing.Json

def hexDigit (n : Nat) : Char :=
  if n < 10 then Char.ofNat (48 + n) else Char.ofNat (87 + n)

def escape (c : Char) : List Char :=
  match c with
  | '"' => ['\\', '"']
  | '\\' => ['\\', '\\']
  | '\x08' => ['\\', 'b']
  | '\x0c' => ['\\', 'f']
  | '\n' => ['\\', 'n']
  | '\r' => ['\\', 'r']
  | '\t' => ['\\', 't']
  | c =>
    if c.toNat < 0x20 then
      ['\\', 'u', '0', '0', hexDigit (c.toNat / 16), hexDigit (c.toNat % 16)]
    else [c]

def quote (text : String) : String :=
  String.ofList ('"' :: (text.toList.flatMap escape ++ ['"']))

def enclose (left right : String) (parts : List String) : String :=
  left ++ ",".intercalate parts ++ right

mutual

def line : Json → String
  | .null => "null"
  | .bool value => if value then "true" else "false"
  | .number text => text
  | .string text => quote text
  | .array items => enclose "[" "]" (lineItems items)
  | .object fields => enclose "\x7b" "\x7d" (lineFields fields)

def lineItems : List Json → List String
  | [] => []
  | item :: rest => line item :: lineItems rest

def lineFields : List (String × Json) → List String
  | [] => []
  | (name, value) :: rest => (quote name ++ ":" ++ line value) :: lineFields rest

end

def newline (level : Nat) : String :=
  "\n" ++ String.ofList (List.replicate (2 * level) ' ')

/-- Parts between brackets, each on a line of its own one level deeper; no parts need no line. -/
def spread (level : Nat) (left right : String) (parts : List String) : String :=
  if parts.isEmpty then left ++ right
  else
    left ++ newline (level + 1) ++ ("," ++ newline (level + 1)).intercalate parts ++ newline level
      ++ right

mutual

def layout (level : Nat) : Json → String
  | .null => "null"
  | .bool value => if value then "true" else "false"
  | .number text => text
  | .string text => quote text
  | .array items => spread level "[" "]" (layoutItems (level + 1) items)
  | .object fields => spread level "\x7b" "\x7d" (layoutFields (level + 1) fields)

def layoutItems (level : Nat) : List Json → List String
  | [] => []
  | item :: rest => layout level item :: layoutItems level rest

def layoutFields (level : Nat) : List (String × Json) → List String
  | [] => []
  | (name, value) :: rest => (quote name ++ ": " ++ layout level value) :: layoutFields level rest

end

def pretty (value : Json) : String := layout 0 value

end LoadBearing.Json
