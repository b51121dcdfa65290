/-! # Source texts

A source text as bytes, since syntax nodes say where they stand by counting bytes.
-/

namespace LoadBearing

structure SourceText where
  bytes : List UInt8
  deriving DecidableEq, Repr

namespace SourceText

def ofString (text : String) : SourceText := ⟨text.toUTF8.data.toList⟩

def lineFeed : UInt8 := 10

/-- The number of the line at an offset: one more than the line feeds before it. -/
def lineAt (s : SourceText) (offset : Nat) : Nat :=
  (s.bytes.take offset).count lineFeed + 1

def decode? (bytes : List UInt8) : Option String :=
  String.fromUTF8? ⟨bytes.toArray⟩

/-- The text between two offsets; empty if they cut a character. -/
def slice (s : SourceText) (start stop : Nat) : String :=
  (decode? ((s.bytes.take stop).drop start)).getD ""

end SourceText

end LoadBearing
