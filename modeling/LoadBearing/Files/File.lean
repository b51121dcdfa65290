import LoadBearing.Source.Text
import LoadBearing.Source.Tree

/-! # Files

A file as its bytes, together with the syntax tree that a parser made of them where there is one.
-/

namespace LoadBearing

inductive FileKind where
  | plain
  | executable
  /-- the bytes are the path that the link leads to -/
  | link
  deriving DecidableEq, Repr

structure File where
  bytes : List UInt8
  kind : FileKind := .plain
  tree : Option Node := none
  deriving Repr

namespace File

def text? (f : File) : Option String := SourceText.decode? f.bytes

/-- Bytes cut into lines, each with the line feed that ends it. -/
def linesOf : List UInt8 → List (List UInt8)
  | [] => []
  | byte :: rest =>
    if byte = SourceText.lineFeed then [byte] :: linesOf rest
    else
      match linesOf rest with
      | [] => [[byte]]
      | line :: later => (byte :: line) :: later

def lines (f : File) : List (List UInt8) := linesOf f.bytes

/-- The bytes that are looked at to tell texts from other data. -/
def head (f : File) : List UInt8 := f.bytes.take 8000

/-- Whether a file holds a zero byte, and so no lines. -/
def hasZero (f : File) : Bool := f.head.contains 0

def isSpace (byte : UInt8) : Bool := byte = 32 || (9 ≤ byte && byte ≤ 13)

/-- Whether a byte can be shown: all but the control bytes, of which backspace, form feed and escape
    count as shown. -/
def isShown (byte : UInt8) : Bool :=
  (31 < byte && byte ≠ 127) || byte = 8 || byte = 12 || byte = 27

/-- The bytes without the mark that a text in UTF-8 may start with. -/
def withoutMark : List UInt8 → List UInt8
  | 0xEF :: 0xBB :: 0xBF :: rest => rest
  | bytes => bytes

def hasWideMark : List UInt8 → Bool
  | 0xFE :: 0xFF :: _ | 0xFF :: 0xFE :: _ | 0 :: 0 :: 0xFE :: 0xFF :: _ => true
  | _ => false

/-- Whether a file looks like data: it holds a zero byte, or more control bytes than one for each 128
    bytes that can be shown. -/
def looksBinary (f : File) : Bool :=
  let bytes := withoutMark f.head
  hasWideMark f.head || bytes.contains 0
    || bytes.countP isShown / 128 < bytes.countP fun byte => !isShown byte && !isSpace byte

end File

end LoadBearing
