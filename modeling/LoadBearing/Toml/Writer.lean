import LoadBearing.Data.Number
import LoadBearing.Toml.Value

/-! # Writing settings files

A text is written in the plainest form that holds it: on one line before several, and as it stands
before with escapes.  An array of two or more elements has a line for each.
-/

namespace LoadBearing.Toml

/-- Whether a character cannot stand in a text without an escape; the line feed can. -/
def isControl (c : Char) : Bool := (c.toNat < 0x20 && c ≠ '\n') || c.toNat = 0x7F

def hasTriple (c : Char) (text : List Char) : Bool :=
  match text with
  | a :: b :: d :: rest => (a = c && b = c && d = c) || hasTriple c (b :: d :: rest)
  | _ => false

def capitalDigit (n : Nat) : Char :=
  if n < 10 then Char.ofNat (48 + n) else Char.ofNat (55 + n)

/-- How a character is written after a backslash, if it has to be. -/
def escapeOf (c : Char) : List Char :=
  match c with
  | '\x08' => ['\\', 'b']
  | '\t' => ['\\', 't']
  | '\n' => ['\\', 'n']
  | '\x0c' => ['\\', 'f']
  | '\r' => ['\\', 'r']
  | '"' => ['\\', '"']
  | '\\' => ['\\', '\\']
  | c =>
    if isControl c then
      ['\\', 'u', '0', '0', capitalDigit (c.toNat / 16), capitalDigit (c.toNat % 16)]
    else [c]

/-- A text with escapes for several lines: line feeds stay, and of quotes next to each other only
    every third is escaped. -/
def escapeLines (quotes : Nat) : List Char → List Char
  | [] => []
  | '\n' :: rest => '\n' :: escapeLines 0 rest
  | '"' :: rest =>
    if quotes = 2 then '\\' :: '"' :: escapeLines 0 rest else '"' :: escapeLines (quotes + 1) rest
  | c :: rest => escapeOf c ++ escapeLines 0 rest

/-- A text between quotes, for a long form with a line break first if it has line breaks. -/
def wrap (quotes : String) (hasLines : Bool) (inner : List Char) : String :=
  quotes ++ (if hasLines then "\n" else "") ++ String.ofList inner ++ quotes

def quote (text : String) : String :=
  let chars := text.toList
  let hasLines := chars.contains '\n'
  let hasControl := chars.any isControl
  if !hasControl && !hasLines && !chars.contains '\\' && !chars.contains '"' then
    wrap "\"" false chars
  else if !hasControl && !hasLines && !chars.contains '\'' then wrap "'" false chars
  else if !hasControl && !chars.contains '\\' && !hasTriple '"' chars then
    wrap "\"\"\"" hasLines chars
  else if !hasControl && !hasTriple '\'' chars then wrap "'''" hasLines chars
  else if hasLines then wrap "\"\"\"" true (escapeLines 0 chars)
  else wrap "\"" false (chars.flatMap escapeOf)

def integerText? (value : Int) : Option String :=
  if -(bitRange 63 : Int) ≤ value && value < bitRange 63 then some (toString value) else none

def arrayText (items : List String) : String :=
  if items.length ≤ 1 then "[" ++ ", ".intercalate items ++ "]"
  else "[\n" ++ String.join (items.map fun item => "    " ++ item ++ ",\n") ++ "]"

def itemText? : Toml → Option String
  | .string text => some (quote text)
  | _ => none

/-- A value as a setting is written; none for a number that does not fit and for values that no
    setting has. -/
def text? : Toml → Option String
  | .boolean value => some (if value then "true" else "false")
  | .integer value => integerText? value
  | .string text => some (quote text)
  | .array items => (items.mapM itemText?).map arrayText
  | _ => none

def sectionText? (name : String) (fields : List (String × Toml)) : Option String := do
  let lines ← fields.mapM fun (key, value) => (text? value).map fun text => s!"{key} = {text}\n"
  some ("[" ++ name ++ "]\n" ++ String.join lines)

def write? (sections : List (String × List (String × Toml))) : Option String :=
  (sections.mapM fun (name, fields) => sectionText? name fields).map "\n".intercalate

end LoadBearing.Toml
