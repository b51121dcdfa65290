/-! # Blank characters

Blanks are the characters with the white-space property: the five controls from tab to carriage
return, the space, the next-line control, and the spaces and separators above the seven-bit range.
-/

namespace LoadBearing.Text

def isBlank (c : Char) : Bool :=
  let code := c.toNat
  (0x09 ≤ code && code ≤ 0x0d) || code == 0x20 || code == 0x85 || code == 0xa0 || code == 0x1680
    || (0x2000 ≤ code && code ≤ 0x200a) || code == 0x2028 || code == 0x2029 || code == 0x202f
    || code == 0x205f || code == 0x3000

def trim (text : String) : String :=
  String.ofList ((text.toList.dropWhile isBlank).reverse.dropWhile isBlank).reverse

def trimEnd (text : List Char) : List Char :=
  (text.reverse.dropWhile isBlank).reverse

def squeeze (text : String) : String :=
  String.ofList (text.toList.filter fun c => !isBlank c)

end LoadBearing.Text
