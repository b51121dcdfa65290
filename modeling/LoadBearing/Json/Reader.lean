import LoadBearing.Json.Basic

/-! # Reading trees

A reader for the format of `Json.line` and `Json.pretty`, with any blanks between the parts.  Every
step consumes a character, so the length of the text bounds the nesting: it is the fuel.
-/

namespace LoadBearing.Json

def skipBlanks (text : List Char) : List Char :=
  text.dropWhile fun c => c = ' ' || c = '\n' || c = '\r' || c = '\t'

def hexValue? (c : Char) : Option Nat :=
  if '0' ≤ c && c ≤ '9' then some (c.toNat - 48)
  else if 'a' ≤ c && c ≤ 'f' then some (c.toNat - 87)
  else if 'A' ≤ c && c ≤ 'F' then some (c.toNat - 55)
  else none

def readUnit? : List Char → Option (Nat × List Char)
  | a :: b :: c :: d :: rest => do
    let value := (((← hexValue? a) * 16 + (← hexValue? b)) * 16 + (← hexValue? c)) * 16
      + (← hexValue? d)
    some (value, rest)
  | _ => none

/-- The character of one 16-bit unit, or of a pair of them. -/
def readEscapedChar? (text : List Char) : Option (Char × List Char) := do
  let (high, rest) ← readUnit? text
  if 0xD800 ≤ high && high < 0xDC00 then
    match rest with
    | '\\' :: 'u' :: rest => do
      let (low, rest) ← readUnit? rest
      some (Char.ofNat (0x10000 + (high - 0xD800) * 0x400 + (low - 0xDC00)), rest)
    | _ => none
  else some (Char.ofNat high, rest)

def readString? : Nat → List Char → List Char → Option (String × List Char)
  | 0, _, _ => none
  | fuel + 1, read, text =>
    match text with
    | '"' :: rest => some (String.ofList read.reverse, rest)
    | '\\' :: 'u' :: rest => do
      let (c, rest) ← readEscapedChar? rest
      readString? fuel (c :: read) rest
    | '\\' :: c :: rest => do
      let c ← [('"', '"'), ('\\', '\\'), ('/', '/'), ('b', '\x08'), ('f', '\x0c'), ('n', '\n'),
        ('r', '\r'), ('t', '\t')].lookup c
      readString? fuel (c :: read) rest
    | c :: rest => readString? fuel (c :: read) rest
    | [] => none

def isNumberChar (c : Char) : Bool :=
  c.isDigit || c = '-' || c = '+' || c = '.' || c = 'e' || c = 'E'

def readWord? (word : String) (value : Json) (text : List Char) : Option (Json × List Char) :=
  if word.toList.isPrefixOf text then some (value, text.drop word.length) else none

mutual

def readValue? : Nat → List Char → Option (Json × List Char)
  | 0, _ => none
  | fuel + 1, text =>
    match skipBlanks text with
    | '\x7b' :: rest =>
      match skipBlanks rest with
      | '\x7d' :: rest => some (.object [], rest)
      | rest => readFields? fuel [] rest
    | '[' :: rest =>
      match skipBlanks rest with
      | ']' :: rest => some (.array [], rest)
      | rest => readItems? fuel [] rest
    | '"' :: rest => (readString? fuel [] rest).map fun (s, rest) => (.string s, rest)
    | 't' :: rest => readWord? "true" (.bool true) ('t' :: rest)
    | 'f' :: rest => readWord? "false" (.bool false) ('f' :: rest)
    | 'n' :: rest => readWord? "null" .null ('n' :: rest)
    | c :: rest =>
      if isNumberChar c then
        some (.number (String.ofList (c :: rest.takeWhile isNumberChar)),
          rest.dropWhile isNumberChar)
      else none
    | [] => none

def readItems? : Nat → List Json → List Char → Option (Json × List Char)
  | 0, _, _ => none
  | fuel + 1, read, text => do
    let (item, rest) ← readValue? fuel text
    match skipBlanks rest with
    | ',' :: rest => readItems? fuel (item :: read) rest
    | ']' :: rest => some (.array (item :: read).reverse, rest)
    | _ => none

def readFields? : Nat → List (String × Json) → List Char → Option (Json × List Char)
  | 0, _, _ => none
  | fuel + 1, read, text =>
    match skipBlanks text with
    | '"' :: rest => do
      let (name, rest) ← readString? fuel [] rest
      match skipBlanks rest with
      | ':' :: rest => do
        let (value, rest) ← readValue? fuel rest
        match skipBlanks rest with
        | ',' :: rest => readFields? fuel ((name, value) :: read) rest
        | '\x7d' :: rest => some (.object ((name, value) :: read).reverse, rest)
        | _ => none
      | _ => none
    | _ => none

end

/-- The value that a text holds, with nothing but blanks after it. -/
def read? (text : String) : Option Json := do
  let chars := text.toList
  let (value, rest) ← readValue? (4 * chars.length + 8) chars
  if (skipBlanks rest).isEmpty then some value else none

end LoadBearing.Json
