import LoadBearing.Source.Text

/-! # Glob patterns

A pattern is read into tokens, and a token is known by what it leaves: `Token.rests` lists every
possible rest of a path after the token has taken its part.  Patterns see the bytes of a path, so
`?` takes one byte, and only `**` crosses a slash.
-/

namespace LoadBearing

inductive Token where
  /-- these bytes -/
  | literal (bytes : List UInt8)
  /-- any byte but a slash -/
  | any
  /-- any bytes but slashes -/
  | many
  /-- at the start: nothing, or all up to a slash -/
  | leadingDirs
  /-- at the end: a slash and all after it -/
  | trailingDirs
  /-- in between: a slash, or all between two slashes -/
  | innerDirs
  /-- one byte within the ranges, or without -/
  | oneOf (negated : Bool) (ranges : List (UInt8 × UInt8))
  /-- one of several patterns -/
  | alternates (branches : List (List Token))
  deriving Repr

abbrev Glob := List Token

inductive GlobError where
  | unclosedClass
  | invalidRange
  | unopenedAlternates
  | unclosedAlternates
  | danglingEscape
  deriving DecidableEq, Repr

/-! ## Matching -/

namespace Token

def slash : UInt8 := 0x2f

/-- Every end of a text, itself and the empty one included. -/
def ends : List UInt8 → List (List UInt8)
  | [] => [[]]
  | byte :: rest => (byte :: rest) :: ends rest

/-- Every end of a text that follows bytes other than slashes. -/
def endsInName : List UInt8 → List (List UInt8)
  | [] => [[]]
  | byte :: rest => (byte :: rest) :: if byte = slash then [] else endsInName rest

/-- Every end of a text that follows a slash. -/
def endsAfterSlash : List UInt8 → List (List UInt8)
  | [] => []
  | byte :: rest => if byte = slash then rest :: endsAfterSlash rest else endsAfterSlash rest

def inRanges (ranges : List (UInt8 × UInt8)) (byte : UInt8) : Bool :=
  ranges.any fun (low, high) => low ≤ byte && byte ≤ high

mutual

def rests : Token → List UInt8 → List (List UInt8)
  | .literal bytes, text => if bytes.isPrefixOf text then [text.drop bytes.length] else []
  | .any, text =>
    match text with
    | byte :: rest => if byte = slash then [] else [rest]
    | [] => []
  | .many, text => endsInName text
  | .leadingDirs, text => text :: endsAfterSlash text
  | .trailingDirs, text =>
    match text with
    | byte :: rest => if byte = slash then ends rest else []
    | [] => []
  | .innerDirs, text =>
    match text with
    | byte :: rest => if byte = slash then rest :: endsAfterSlash rest else []
    | [] => []
  | .oneOf negated ranges, text =>
    match text with
    | byte :: rest => if inRanges ranges byte != negated then [rest] else []
    | [] => []
  | .alternates branches, text =>
    if branches.all List.isEmpty then [text] else restsAny branches text

/-- Every rest after one of some patterns; an empty one among others does not count. -/
def restsAny : List (List Token) → List UInt8 → List (List UInt8)
  | [], _ => []
  | branch :: branches, text =>
    (if branch.isEmpty then [] else restsAll branch text) ++ restsAny branches text

def restsAll : List Token → List UInt8 → List (List UInt8)
  | [], text => [text]
  | token :: tokens, text => (token.rests text).flatMap (restsAll tokens)

end

end Token

namespace Glob

def isAnything : Glob → Bool
  | [.leadingDirs] => true
  | _ => false

def isMatch (glob : Glob) (path : List UInt8) : Bool :=
  isAnything glob || (Token.restsAll glob path).any List.isEmpty

end Glob

/-! ## Reading -/

namespace Glob

def charBytes (c : Char) : List UInt8 := (SourceText.ofString (String.singleton c)).bytes

def literalOf (c : Char) : Token := .literal (charBytes c)

/-- The bytes of the last byte of one character up to the first of another, and the other bytes of
    both. -/
def byteRanges (low high : Char) : List (UInt8 × UInt8) :=
  let front := charBytes low
  let back := charBytes high
  let single := fun byte => (byte, byte)
  if low = high then front.map single
  else
    front.dropLast.map single ++ [(front.getLastD 0, back.headD 0)] ++ back.tail.map single

/-- An open group of alternates: the tokens before it, and its finished branches. -/
structure OpenGroup where
  before : List Token
  branches : List (List Token)

/-- A pattern that is being read: the open groups, the innermost first, and the tokens of the
    current branch, the last first. -/
structure Draft where
  groups : List OpenGroup := []
  tokens : List Token := []

namespace Draft

def push (d : Draft) (token : Token) : Draft := { d with tokens := token :: d.tokens }

def openGroup (d : Draft) : Draft := ⟨⟨d.tokens, []⟩ :: d.groups, []⟩

/-- Starts the next branch of a group; outside of one a comma stands for itself. -/
def nextBranch (d : Draft) : Draft :=
  match d.groups with
  | [] => d.push (literalOf ',')
  | group :: outer =>
    ⟨{ group with branches := group.branches ++ [d.tokens.reverse] } :: outer, []⟩

def closeGroup (d : Draft) : Except GlobError Draft :=
  match d.groups with
  | [] => .error .unopenedAlternates
  | group :: outer =>
    .ok ⟨outer, .alternates (group.branches ++ [d.tokens.reverse]) :: group.before⟩

/-- Puts directories that a double star stands for in the place of the slash before it. -/
def pushDirs (d : Draft) (isLast : Bool) : Draft :=
  match d.tokens with
  | .leadingDirs :: _ => d
  | .trailingDirs :: _ => d
  | _ :: tokens => { d with tokens := (if isLast then .trailingDirs else .innerDirs) :: tokens }
  | [] => d

end Draft

def doubleStar (d : Draft) (before : Option Char) (text : List Char) : Draft × List Char :=
  let plain := ((d.push .many).push .many, text)
  let inGroup := !d.groups.isEmpty
  if d.tokens.isEmpty then
    match text with
    | [] => (d.push .leadingDirs, [])
    | '/' :: rest => (d.push .leadingDirs, rest)
    | _ => plain
  else if before ≠ some '/' && !(inGroup && (before = some ',' || before = some '\x7b')) then plain
  else
    match text with
    | [] => (d.pushDirs true, [])
    | '/' :: rest => (d.pushDirs false, rest)
    | c :: _ => if inGroup && (c = ',' || c = '\x7d') then (d.pushDirs true, text) else plain

/-- The ranges of a class being read, the last first. -/
structure ClassDraft where
  isFirst : Bool := true
  /-- whether a dash waits for the end of its range -/
  inRange : Bool := false
  ranges : List (Char × Char) := []

def ClassDraft.add (d : ClassDraft) (c : Char) : Except GlobError ClassDraft :=
  if d.inRange then
    match d.ranges with
    | (low, _) :: ranges =>
      if c < low then .error .invalidRange else .ok ⟨false, false, (low, c) :: ranges⟩
    | [] => .ok ⟨false, false, [(c, c)]⟩
  else if c = '-' && !d.isFirst then .ok ⟨false, true, d.ranges⟩
  else .ok ⟨false, false, (c, c) :: d.ranges⟩

/-- The ranges of a class; a dash at its end stands for itself. -/
def ClassDraft.finish (d : ClassDraft) : List (Char × Char) :=
  (if d.inRange then ('-', '-') :: d.ranges else d.ranges).reverse

/-- Reads a class up to its bracket; a bracket that comes first stands for itself. -/
def readClass (d : ClassDraft) :
    List Char → Except GlobError (List (Char × Char) × List Char)
  | [] => .error .unclosedClass
  | c :: rest =>
    if c = ']' && !d.isFirst then .ok (d.finish, rest)
    else do
      let d ← d.add c
      readClass d rest

def classToken (text : List Char) : Except GlobError (Token × List Char) := do
  let negated := text.head? = some '!' || text.head? = some '^'
  let (ranges, rest) ← readClass {} (if negated then text.tail else text)
  .ok (.oneOf negated (ranges.flatMap fun (low, high) => byteRanges low high), rest)

/-- Reads a pattern after the character `before`.  Each step takes a character, so the length of the
    text is enough fuel.  A lenient reader takes a bracket that is never closed for itself. -/
def readAll (lenient : Bool) :
    Nat → Draft → Option Char → List Char → Except GlobError Draft
  | 0, d, _, _ => .ok d
  | fuel + 1, d, before, text =>
    match text with
    | [] => .ok d
    | '?' :: rest => readAll lenient fuel (d.push .any) (some '?') rest
    | '*' :: '*' :: rest =>
      let (d, left) := doubleStar d before rest
      let last := if left.length < rest.length then '/' else '*'
      readAll lenient fuel d (some last) left
    | '*' :: rest => readAll lenient fuel (d.push .many) (some '*') rest
    | '[' :: rest =>
      match classToken rest with
      | .ok (token, rest) => readAll lenient fuel (d.push token) (some ']') rest
      | .error .unclosedClass =>
        if lenient then readAll lenient fuel (d.push (literalOf '[')) (some '[') rest
        else .error .unclosedClass
      | .error e => .error e
    | '\x7b' :: rest => readAll lenient fuel d.openGroup (some '\x7b') rest
    | '\x7d' :: rest => do
      let d ← d.closeGroup
      readAll lenient fuel d (some '\x7d') rest
    | ',' :: rest => readAll lenient fuel d.nextBranch (some ',') rest
    | '\\' :: rest =>
      match rest with
      | [] => .error .danglingEscape
      | c :: rest => readAll lenient fuel (d.push (literalOf c)) (some c) rest
    | c :: rest => readAll lenient fuel (d.push (literalOf c)) (some c) rest

def parse (lenient : Bool) (pattern : String) : Except GlobError Glob := do
  let chars := pattern.toList
  let d ← readAll lenient (chars.length + 1) {} none chars
  if d.groups.isEmpty then .ok d.tokens.reverse else .error .unclosedAlternates

end Glob

end LoadBearing
