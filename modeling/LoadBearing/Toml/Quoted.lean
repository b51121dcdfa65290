import LoadBearing.Json.Reader
import LoadBearing.Toml.Value

/-! # Quoted texts in settings files

Four forms: with escapes or without, on one line or over several.  A line break right after the
opening quotes of a long form does not count, and every line break reads as a line feed.
-/

namespace LoadBearing.Toml

def charOf? (code : Nat) : Option Char :=
  if code.isValidChar then some (Char.ofNat code) else none

/-- The character with the code in the first `count` hexadecimal digits. -/
def codePoint? (count : Nat) (text : List Char) : Option (Char × List Char) := do
  let values ← (text.take count).mapM Json.hexValue?
  if values.length ≠ count then none
  let c ← charOf? (values.foldl (fun code value => code * 16 + value) 0)
  some (c, text.drop count)

def escaped? : Reads Char
  | 'b' :: rest => some ('\x08', rest)
  | 't' :: rest => some ('\t', rest)
  | 'n' :: rest => some ('\n', rest)
  | 'f' :: rest => some ('\x0c', rest)
  | 'r' :: rest => some ('\r', rest)
  | '"' :: rest => some ('"', rest)
  | '\\' :: rest => some ('\\', rest)
  | 'u' :: rest => codePoint? 4 rest
  | 'U' :: rest => codePoint? 8 rest
  | _ => none

/-- The rest of a text with escapes on one line.  Each step takes a character, so the length of the
    text is enough fuel; the same holds of the other readers here. -/
def basic? : Nat → List Char → List Char → Option (String × List Char)
  | 0, _, _ => none
  | fuel + 1, read, text =>
    match text with
    | '"' :: rest => some (String.ofList read.reverse, rest)
    | '\\' :: rest => do
      let (c, rest) ← escaped? rest
      basic? fuel (c :: read) rest
    | c :: rest => if isPlain c then basic? fuel (c :: read) rest else none
    | [] => none

def literal? (text : List Char) : Option (String × List Char) :=
  let inner := text.takeWhile fun c => isPlain c && c ≠ '\''
  match text.drop inner.length with
  | '\'' :: rest => some (String.ofList inner, rest)
  | _ => none

def skipBlankLines : List Char → List Char
  | '\r' :: '\n' :: rest => skipBlankLines rest
  | c :: rest => if isSpace c || c = '\n' then skipBlankLines rest else c :: rest
  | [] => []

/-- The rest after a backslash that ends a line: the blanks that follow do not count. -/
def joinedLine? (text : List Char) : Option (List Char) :=
  (newline? (skipSpaces text)).map skipBlankLines

/-- What a run of quotes in a long text means: up to two are text, up to five end it, and all but
    the last three of those are text. -/
def quoteRun (quote : Char) (text : List Char) : Nat × Bool × List Char :=
  let count := (text.takeWhile (· = quote)).length
  if count < 3 then (count, false, text.drop count)
  else (min count 5 - 3, true, text.drop (min count 5))

/-- The rest of a text with escapes over several lines. -/
def longBasic? : Nat → List Char → List Char → Option (String × List Char)
  | 0, _, _ => none
  | fuel + 1, read, text =>
    match text with
    | '"' :: _ =>
      let (count, ends, rest) := quoteRun '"' text
      let read := List.replicate count '"' ++ read
      if ends then some (String.ofList read.reverse, rest) else longBasic? fuel read rest
    | '\\' :: rest =>
      match joinedLine? rest with
      | some rest => longBasic? fuel read rest
      | none => do
        let (c, rest) ← escaped? rest
        longBasic? fuel (c :: read) rest
    | '\r' :: '\n' :: rest | '\n' :: rest => longBasic? fuel ('\n' :: read) rest
    | c :: rest => if isPlain c then longBasic? fuel (c :: read) rest else none
    | [] => none

def longLiteral? : Nat → List Char → List Char → Option (String × List Char)
  | 0, _, _ => none
  | fuel + 1, read, text =>
    match text with
    | '\'' :: _ =>
      let (count, ends, rest) := quoteRun '\'' text
      let read := List.replicate count '\'' ++ read
      if ends then some (String.ofList read.reverse, rest) else longLiteral? fuel read rest
    | '\r' :: '\n' :: rest | '\n' :: rest => longLiteral? fuel ('\n' :: read) rest
    | c :: rest => if isPlain c then longLiteral? fuel (c :: read) rest else none
    | [] => none

/-- The rest without the line break that may follow opening quotes. -/
def afterOpening (text : List Char) : List Char := (newline? text).getD text

def quoted? (text : List Char) : Option (String × List Char) :=
  match text with
  | '"' :: '"' :: '"' :: rest => longBasic? (rest.length + 1) [] (afterOpening rest)
  | '"' :: rest => basic? (rest.length + 1) [] rest
  | '\'' :: '\'' :: '\'' :: rest => longLiteral? (rest.length + 1) [] (afterOpening rest)
  | '\'' :: rest => literal? rest
  | _ => none

def shortQuoted? (text : List Char) : Option (String × List Char) :=
  match text with
  | '"' :: rest => basic? (rest.length + 1) [] rest
  | '\'' :: rest => literal? rest
  | _ => none

end LoadBearing.Toml
