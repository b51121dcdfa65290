import LoadBearing.Data.Number
import LoadBearing.Toml.Value

/-! # Numbers and dates

Whole numbers fit 64 bits with a sign.  Of dates and of numbers with a point only the form is
checked, since no setting is one.
-/

namespace LoadBearing.Toml

def digits? (count : Nat) (text : List Char) : Option (Nat × List Char) :=
  let front := text.take count
  if front.length = count && front.all Char.isDigit then
    some (front.foldl (fun value c => value * 10 + (c.toNat - 48)) 0, text.drop count)
  else none

def expect? (c : Char) : List Char → Option (List Char)
  | first :: rest => if first = c then some rest else none
  | [] => none

/-! ## Dates and times -/

def daysIn (year month : Nat) : Nat :=
  if month = 2 then
    if (year % 4 = 0 && year % 100 ≠ 0) || year % 400 = 0 then 29 else 28
  else if month = 4 || month = 6 || month = 9 || month = 11 then 30
  else 31

def date? (text : List Char) : Option (List Char) := do
  let (year, rest) ← digits? 4 text
  let rest ← expect? '-' rest
  let (month, rest) ← digits? 2 rest
  let rest ← expect? '-' rest
  let (day, rest) ← digits? 2 rest
  if 1 ≤ month && month ≤ 12 && 1 ≤ day && day ≤ daysIn year month then some rest else none

/-- The rest after a fraction of a second, if there is one. -/
def skipFraction (text : List Char) : List Char :=
  match text with
  | '.' :: c :: rest => if c.isDigit then rest.dropWhile Char.isDigit else text
  | _ => text

/-- The rest after a time of day; a minute may have a leap second. -/
def time? (text : List Char) : Option (List Char) := do
  let (hour, rest) ← digits? 2 text
  let rest ← expect? ':' rest
  let (minute, rest) ← digits? 2 rest
  let rest ← expect? ':' rest
  let (second, rest) ← digits? 2 rest
  if hour < 24 && minute < 60 && second ≤ 60 then some (skipFraction rest) else none

def offset? : List Char → Option (List Char)
  | 'Z' :: rest | 'z' :: rest => some rest
  | '+' :: rest | '-' :: rest => do
    let (hour, rest) ← digits? 2 rest
    let rest ← expect? ':' rest
    let (minute, rest) ← digits? 2 rest
    if hour < 24 && minute < 60 then some rest else none
  | _ => none

def timeAfterDate? : List Char → Option (List Char)
  | c :: rest =>
    if c = 'T' || c = 't' || c = ' ' then
      (time? rest).map fun rest => (offset? rest).getD rest
    else none
  | [] => none

def datetime? (text : List Char) : Option (List Char) :=
  match date? text with
  | some rest => some ((timeAfterDate? rest).getD rest)
  | none => time? text

/-! ## Numbers -/

/-- The digits at the start of a text, where an underscore may stand between two of them. -/
def digitRun (isDigit : Char → Bool) : List Char → List Char × List Char
  | '_' :: c :: rest =>
    if isDigit c then
      let (run, rest) := digitRun isDigit rest
      (c :: run, rest)
    else ([], '_' :: c :: rest)
  | c :: rest =>
    if isDigit c then
      let (run, rest) := digitRun isDigit rest
      (c :: run, rest)
    else ([], c :: rest)
  | [] => ([], [])

/-- At least one digit; the first may not be an underscore. -/
def digitsOf? (isDigit : Char → Bool) : Reads (List Char)
  | c :: rest =>
    if isDigit c then
      let (run, rest) := digitRun isDigit rest
      some (c :: run, rest)
    else none
  | [] => none

def digitValue (c : Char) : Nat :=
  if c.isDigit then c.toNat - 48 else if c.isUpper then c.toNat - 55 else c.toNat - 87

def valueOf (base : Nat) (run : List Char) : Nat :=
  run.foldl (fun value c => value * base + digitValue c) 0

/-- A whole number without a sign: a zero stands alone. -/
def unsigned? : Reads (List Char)
  | '0' :: rest => some (['0'], rest)
  | text => digitsOf? Char.isDigit text

def sign : List Char → Bool × List Char
  | '-' :: rest => (true, rest)
  | '+' :: rest => (false, rest)
  | text => (false, text)

/-- Keeps a whole number that fits 64 bits with a sign. -/
def inRange (value : Int) (rest : List Char) : Option (Toml × List Char) :=
  if -(bitRange 63 : Int) ≤ value && value < bitRange 63 then some (.integer value, rest) else none

def isHexDigit (c : Char) : Bool :=
  c.isDigit || ('a' ≤ c && c ≤ 'f') || ('A' ≤ c && c ≤ 'F')

def isOctalDigit (c : Char) : Bool := '0' ≤ c && c ≤ '7'

def isBinaryDigit (c : Char) : Bool := c = '0' || c = '1'

def inBase? (base : Nat) (isDigit : Char → Bool) (text : List Char) : Option (Toml × List Char) := do
  let (run, rest) ← digitsOf? isDigit text
  inRange (valueOf base run) rest

def integer? : Reads Toml
  | '0' :: 'x' :: rest => inBase? 16 isHexDigit rest
  | '0' :: 'o' :: rest => inBase? 8 isOctalDigit rest
  | '0' :: 'b' :: rest => inBase? 2 isBinaryDigit rest
  | text => do
    let (negative, rest) := sign text
    let (run, rest) ← unsigned? rest
    let value : Int := valueOf 10 run
    inRange (if negative then -value else value) rest

def exponent? : Reads Int
  | c :: rest =>
    if c = 'e' || c = 'E' then do
      let (negative, rest) := sign rest
      let (run, rest) ← digitsOf? Char.isDigit rest
      let value : Int := valueOf 10 run
      some (if negative then -value else value, rest)
    else none
  | [] => none

def fraction? : Reads (List Char)
  | '.' :: rest => digitsOf? Char.isDigit rest
  | _ => none

/-- Whether `mantissa · 10 ^ exponent` is small enough for a double. -/
def isFinite (mantissa : Nat) (exponent : Int) : Bool :=
  let scale : Int := (Nat.toDigits 10 mantissa).length + exponent
  if mantissa = 0 || scale < 309 then true
  else if 310 < scale then false
  else mantissa * tenTo exponent.toNat
      < (bitRange 1024 - bitRange 970) * tenTo (-exponent).toNat

/-- A number with a point or an exponent, or one of the words for what is not finite. -/
def float? (text : List Char) : Option (List Char) :=
  let (_, rest) := sign text
  match rest with
  | 'i' :: 'n' :: 'f' :: rest => some rest
  | 'n' :: 'a' :: 'n' :: rest => some rest
  | _ => do
    let (whole, rest) ← unsigned? rest
    match fraction? rest with
    | some (fraction, rest) =>
      let (exponent, rest) := (exponent? rest).getD (0, rest)
      if isFinite (valueOf 10 (whole ++ fraction)) (exponent - fraction.length) then some rest
      else none
    | none =>
      let (exponent, rest) ← exponent? rest
      if isFinite (valueOf 10 whole) exponent then some rest else none

def number? (text : List Char) : Option (Toml × List Char) :=
  match datetime? text with
  | some rest => some (.datetime, rest)
  | none =>
    match float? text with
    | some rest => some (.float, rest)
    | none => integer? text

end LoadBearing.Toml
