import LoadBearing.Data.Number
import LoadBearing.Source.Text

/-! # Packed values

A compact binary form of values, in which every number and every length takes the shortest form that
holds it.  A reader accepts any form.
-/

namespace LoadBearing

inductive Packed where
  | nothing
  | bool (value : Bool)
  | integer (value : Int)
  | float
  /-- bytes that should be a text -/
  | text (bytes : List UInt8)
  | binary (bytes : List UInt8)
  | array (items : List Packed)
  | map (fields : List (Packed × Packed))
  /-- a value of a kind that is not known here -/
  | extension
  deriving Repr

namespace Packed

def nat (n : Nat) : Packed := .integer n

def string (text : String) : Packed := .text (SourceText.ofString text).bytes

/-! ## Writing -/

/-- A number in `width` bytes, the highest first. -/
def bigEndian (width : Nat) (n : Nat) : List UInt8 :=
  (List.range width).reverse.map fun place => UInt8.ofNat (n / bitRange (8 * place))

def writeInteger (value : Int) : List UInt8 :=
  let bits (width : Nat) : Nat := (value % bitRange (8 * width)).toNat
  if 0 ≤ value then
    if value < bitRange 7 then bigEndian 1 value.toNat
    else if value < bitRange 8 then 0xcc :: bigEndian 1 value.toNat
    else if value < bitRange 16 then 0xcd :: bigEndian 2 value.toNat
    else if value < bitRange 32 then 0xce :: bigEndian 4 value.toNat
    else 0xcf :: bigEndian 8 value.toNat
  else if -32 ≤ value then bigEndian 1 (bits 1)
  else if -(bitRange 7 : Int) ≤ value then 0xd0 :: bigEndian 1 (bits 1)
  else if -(bitRange 15 : Int) ≤ value then 0xd1 :: bigEndian 2 (bits 2)
  else if -(bitRange 31 : Int) ≤ value then 0xd2 :: bigEndian 4 (bits 4)
  else 0xd3 :: bigEndian 8 (bits 8)

def textHead (length : Nat) : List UInt8 :=
  if length < 32 then bigEndian 1 (0xa0 + length)
  else if length < bitRange 8 then 0xd9 :: bigEndian 1 length
  else if length < bitRange 16 then 0xda :: bigEndian 2 length
  else 0xdb :: bigEndian 4 length

def binaryHead (length : Nat) : List UInt8 :=
  if length < bitRange 8 then 0xc4 :: bigEndian 1 length
  else if length < bitRange 16 then 0xc5 :: bigEndian 2 length
  else 0xc6 :: bigEndian 4 length

def arrayHead (length : Nat) : List UInt8 :=
  if length < 16 then bigEndian 1 (0x90 + length)
  else if length < bitRange 16 then 0xdc :: bigEndian 2 length
  else 0xdd :: bigEndian 4 length

def mapHead (length : Nat) : List UInt8 :=
  if length < 16 then bigEndian 1 (0x80 + length)
  else if length < bitRange 16 then 0xde :: bigEndian 2 length
  else 0xdf :: bigEndian 4 length

mutual

def write : Packed → List UInt8
  | .nothing => [0xc0]
  | .bool value => [if value then 0xc3 else 0xc2]
  | .integer value => writeInteger value
  | .float => 0xcb :: bigEndian 8 0
  | .text bytes => textHead bytes.length ++ bytes
  | .binary bytes => binaryHead bytes.length ++ bytes
  | .array items => arrayHead items.length ++ writeItems items
  | .map fields => mapHead fields.length ++ writeFields fields
  | .extension => [0xc7, 0, 0]

def writeItems : List Packed → List UInt8
  | [] => []
  | item :: rest => item.write ++ writeItems rest

def writeFields : List (Packed × Packed) → List UInt8
  | [] => []
  | (key, value) :: rest => key.write ++ value.write ++ writeFields rest

end

/-! ## Reading -/

def take? (count : Nat) (bytes : List UInt8) : Option (List UInt8 × List UInt8) :=
  if count ≤ bytes.length then some (bytes.take count, bytes.drop count) else none

def number? (width : Nat) (bytes : List UInt8) : Option (Nat × List UInt8) :=
  (take? width bytes).map fun (front, rest) =>
    (front.foldl (fun value byte => value * 256 + byte.toNat) 0, rest)

def unsigned? (width : Nat) (bytes : List UInt8) : Option (Packed × List UInt8) :=
  (number? width bytes).map fun (n, rest) => (.integer n, rest)

def signed? (width : Nat) (bytes : List UInt8) : Option (Packed × List UInt8) :=
  (number? width bytes).map fun (n, rest) => (.integer (Int.bmod n (bitRange (8 * width))), rest)

def counted? (kind : List UInt8 → Packed) (width : Nat) (bytes : List UInt8) :
    Option (Packed × List UInt8) := do
  let (count, rest) ← number? width bytes
  let (front, rest) ← take? count rest
  some (kind front, rest)

/-- A value whose bytes do not matter. -/
def skipped? (kind : Packed) (count : Nat) (bytes : List UInt8) : Option (Packed × List UInt8) :=
  (take? count bytes).map fun (_, rest) => (kind, rest)

def extension? (width : Nat) (bytes : List UInt8) : Option (Packed × List UInt8) := do
  let (count, rest) ← number? width bytes
  skipped? .extension (count + 1) rest

inductive Head where
  | done (value : Packed)
  | items (count : Nat)
  | fields (count : Nat)

/-- A head that is a whole value. -/
def whole? (read : Option (Packed × List UInt8)) : Option (Head × List UInt8) :=
  read.map fun (value, rest) => (.done value, rest)

def itemsHead? (width : Nat) (bytes : List UInt8) : Option (Head × List UInt8) :=
  (number? width bytes).map fun (count, rest) => (.items count, rest)

def fieldsHead? (width : Nat) (bytes : List UInt8) : Option (Head × List UInt8) :=
  (number? width bytes).map fun (count, rest) => (.fields count, rest)

/-- What follows the first bytes that hold no part of a value. -/
def longHeads : List (Nat × (List UInt8 → Option (Head × List UInt8))) :=
  [ (0xc0, fun rest => some (.done .nothing, rest)),
    (0xc2, fun rest => some (.done (.bool false), rest)),
    (0xc3, fun rest => some (.done (.bool true), rest)),
    (0xc4, fun rest => whole? (counted? .binary 1 rest)),
    (0xc5, fun rest => whole? (counted? .binary 2 rest)),
    (0xc6, fun rest => whole? (counted? .binary 4 rest)),
    (0xc7, fun rest => whole? (extension? 1 rest)),
    (0xc8, fun rest => whole? (extension? 2 rest)),
    (0xc9, fun rest => whole? (extension? 4 rest)),
    (0xca, fun rest => whole? (skipped? .float 4 rest)),
    (0xcb, fun rest => whole? (skipped? .float 8 rest)),
    (0xcc, fun rest => whole? (unsigned? 1 rest)),
    (0xcd, fun rest => whole? (unsigned? 2 rest)),
    (0xce, fun rest => whole? (unsigned? 4 rest)),
    (0xcf, fun rest => whole? (unsigned? 8 rest)),
    (0xd0, fun rest => whole? (signed? 1 rest)),
    (0xd1, fun rest => whole? (signed? 2 rest)),
    (0xd2, fun rest => whole? (signed? 4 rest)),
    (0xd3, fun rest => whole? (signed? 8 rest)),
    (0xd4, fun rest => whole? (skipped? .extension 2 rest)),
    (0xd5, fun rest => whole? (skipped? .extension 3 rest)),
    (0xd6, fun rest => whole? (skipped? .extension 5 rest)),
    (0xd7, fun rest => whole? (skipped? .extension 9 rest)),
    (0xd8, fun rest => whole? (skipped? .extension 17 rest)),
    (0xd9, fun rest => whole? (counted? .text 1 rest)),
    (0xda, fun rest => whole? (counted? .text 2 rest)),
    (0xdb, fun rest => whole? (counted? .text 4 rest)),
    (0xdc, itemsHead? 2),
    (0xdd, itemsHead? 4),
    (0xde, fieldsHead? 2),
    (0xdf, fieldsHead? 4) ]

/-- A value that holds no other, or the number of values that follow. -/
def head? (bytes : List UInt8) : Option (Head × List UInt8) :=
  match bytes with
  | [] => none
  | byte :: rest =>
    let code := byte.toNat
    if code < 0x80 then some (.done (.integer code), rest)
    else if code < 0x90 then some (.fields (code - 0x80), rest)
    else if code < 0xa0 then some (.items (code - 0x90), rest)
    else if code < 0xc0 then
      whole? ((take? (code - 0xa0) rest).map fun (front, rest) => (.text front, rest))
    else if 0xe0 ≤ code then some (.done (.integer ((code : Int) - 256)), rest)
    else (longHeads.lookup code).bind fun read => read rest

mutual

/-- The value at the start of some bytes.  Each value takes a byte, so the number of bytes bounds
    both the nesting and the number of values. -/
def read? : Nat → List UInt8 → Option (Packed × List UInt8)
  | 0, _ => none
  | fuel + 1, bytes =>
    match head? bytes with
    | none => none
    | some (.done value, rest) => some (value, rest)
    | some (.items count, rest) =>
      (readItems? fuel count rest).map fun (items, rest) => (.array items, rest)
    | some (.fields count, rest) =>
      (readFields? fuel count rest).map fun (fields, rest) => (.map fields, rest)

def readItems? : Nat → Nat → List UInt8 → Option (List Packed × List UInt8)
  | _, 0, bytes => some ([], bytes)
  | 0, _ + 1, _ => none
  | fuel + 1, count + 1, bytes => do
    let (item, rest) ← read? fuel bytes
    let (items, rest) ← readItems? fuel count rest
    some (item :: items, rest)

def readFields? : Nat → Nat → List UInt8 → Option (List (Packed × Packed) × List UInt8)
  | _, 0, bytes => some ([], bytes)
  | 0, _ + 1, _ => none
  | fuel + 1, count + 1, bytes => do
    let (key, rest) ← read? fuel bytes
    let (value, rest) ← read? fuel rest
    let (fields, rest) ← readFields? fuel count rest
    some ((key, value) :: fields, rest)

end

/-- The value that some bytes start with; what follows it does not matter. -/
def ofBytes? (bytes : List UInt8) : Option Packed :=
  (read? (2 * bytes.length + 2) bytes).map Prod.fst

end Packed

end LoadBearing
