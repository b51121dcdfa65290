import LoadBearing.Toml.Quoted
import LoadBearing.Toml.Scalar

/-! # Settings files

A file is read line by line into a tree of *sections*.  A section remembers how it came to be: named
in a header, only implied by the header of a section below it, or implied by a dotted key.  That
decides what may still be added to it: a header may claim a section that another header implied, a
dotted key may extend one that a dotted key implied, and nothing is ever defined twice.
-/

namespace LoadBearing.Toml

mutual

inductive Entry where
  | value (value : Toml)
  | nested (content : Section)
  /-- the sections of a list, of which only the last can still grow -/
  | list (sections : List Section)

inductive Section where
  | mk (isImplied isDotted : Bool) (fields : List (String × Entry))

end

mutual

def Entry.toToml : Entry → Toml
  | .value value => value
  | .nested content => content.toToml
  | .list sections => .array (Section.listToToml sections)

def Section.toToml : Section → Toml
  | .mk _ _ fields => .table (Section.fieldsToToml fields)

def Section.listToToml : List Section → List Toml
  | [] => []
  | first :: rest => first.toToml :: Section.listToToml rest

def Section.fieldsToToml : List (String × Entry) → List (String × Toml)
  | [] => []
  | (key, entry) :: rest => (key, entry.toToml) :: Section.fieldsToToml rest

end

namespace Section

def empty : Section := .mk false false []

def isImplied : Section → Bool
  | .mk isImplied _ _ => isImplied

def isDotted : Section → Bool
  | .mk _ isDotted _ => isDotted

def find? : Section → String → Option Entry
  | .mk _ _ fields, key => fields.lookup key

/-- Puts an entry in the place of the one under a key, or at the end. -/
def set : Section → String → Entry → Section
  | .mk isImplied isDotted fields, key, entry =>
    .mk isImplied isDotted
      (if fields.any fun field => field.1 = key then
        fields.map fun field => if field.1 = key then (key, entry) else field
      else fields ++ [(key, entry)])

def claim : Section → Section
  | .mk _ _ fields => .mk false false fields

/-- Changes the section at the end of a path of keys.  Missing sections on the way are implied; a
    dotted path passes only through implied sections. -/
def descend (dotted : Bool) (change : Section → Option Section) :
    List String → Section → Option Section
  | [], s => change s
  | key :: path, s =>
    match s.find? key with
    | none => do
      let inner ← descend dotted change path (.mk true dotted [])
      some (s.set key (.nested inner))
    | some (.value _) => none
    | some (.nested inner) =>
      if dotted && !inner.isImplied then none
      else do
        let inner ← descend dotted change path inner
        some (s.set key (.nested inner))
    | some (.list sections) =>
      match sections.getLast? with
      | none => none
      | some last => do
        let last ← descend dotted change path last
        some (s.set key (.list (sections.dropLast ++ [last])))

def store (path : List String) (key : String) (value : Toml) (s : Section) : Option Section :=
  descend true (fun inner =>
    if inner.isDotted = path.isEmpty || (inner.find? key).isSome then none
    else some (inner.set key (.value value))) path s

def openSection (path : List String) (key : String) (root : Section) : Option Section :=
  descend false (fun s =>
    match s.find? key with
    | none => some (s.set key (.nested empty))
    | some (.nested inner) =>
      if inner.isImplied && !inner.isDotted then some (s.set key (.nested inner.claim)) else none
    | some _ => none) path root

/-- Opens one more section of a list of sections. -/
def openListed (path : List String) (key : String) (root : Section) : Option Section :=
  descend false (fun s =>
    match s.find? key with
    | none => some (s.set key (.list [empty]))
    | some (.list sections) => some (s.set key (.list (sections ++ [empty])))
    | some _ => none) path root

end Section

/-! ## Keys -/

def isBareKeyChar (c : Char) : Bool :=
  c.isAlphanum || c = '_' || c = '-'

def simpleKey? (text : List Char) : Option (String × List Char) :=
  match shortQuoted? text with
  | some found => some found
  | none =>
    let bare := text.takeWhile isBareKeyChar
    if bare.isEmpty then none else some (String.ofList bare, text.drop bare.length)

/-- Keys joined by dots, with blanks around each: all but the last, and the last. -/
def dottedKey? : Nat → List String → List Char → Option ((List String × String) × List Char)
  | 0, _, _ => none
  | fuel + 1, path, text => do
    let (key, rest) ← simpleKey? (skipSpaces text)
    match skipSpaces rest with
    | '.' :: rest => dottedKey? fuel (path ++ [key]) rest
    | rest => some ((path, key), rest)

/-- No path of keys is longer than this. -/
def pathLimit : Nat := 79

def key? (text : List Char) : Option ((List String × String) × List Char) :=
  dottedKey? pathLimit [] text

/-! ## Values -/

/-- The rest after blanks, line breaks and comments between the elements of an array; none if a
    comment is not well formed. -/
def skipBetween? : Nat → List Char → Option (List Char)
  | 0, _ => none
  | fuel + 1, text =>
    match skipBlankLines text with
    | '#' :: rest =>
      match rest.dropWhile isPlain with
      | [] => some []
      | rest => (newline? rest).bind (skipBetween? fuel)
    | rest => some rest

def items? (read : Reads Toml) : Nat → List Toml → List Char → Option (Toml × List Char)
  | 0, _, _ => none
  | fuel + 1, items, text => do
    let rest ← skipBetween? (text.length + 1) text
    match rest with
    | ']' :: rest => some (.array items.reverse, rest)
    | _ =>
      let (item, rest) ← read rest
      let rest ← skipBetween? (rest.length + 1) rest
      match rest with
      | ',' :: rest => items? read fuel (item :: items) rest
      | ']' :: rest => some (.array (item :: items).reverse, rest)
      | _ => none

/-- The fields of a table on one line, after its brace or a comma. -/
def inlineFields? (read : Reads Toml) : Nat → Section → List Char → Option (Toml × List Char)
  | 0, _, _ => none
  | fuel + 1, s, text => do
    let ((path, key), rest) ← key? text
    let rest ← (match rest with | '=' :: rest => some rest | _ => none)
    let (value, rest) ← read (skipSpaces rest)
    let s ← s.store path key value
    match skipSpaces rest with
    | ',' :: rest => inlineFields? read fuel s rest
    | '\x7d' :: rest => some (s.toToml, rest)
    | _ => none

def inlineTable? (read : Reads Toml) (text : List Char) : Option (Toml × List Char) :=
  match skipSpaces text with
  | '\x7d' :: rest => some (.table [], rest)
  | _ => inlineFields? read (text.length + 1) .empty text

/-- A value that holds no other. -/
def scalar? (text : List Char) : Option (Toml × List Char) :=
  match text with
  | 't' :: 'r' :: 'u' :: 'e' :: rest => some (.boolean true, rest)
  | 'f' :: 'a' :: 'l' :: 's' :: 'e' :: rest => some (.boolean false, rest)
  | '"' :: _ | '\'' :: _ => (quoted? text).map fun (s, rest) => (.string s, rest)
  | _ => number? text

/-- A value that nests arrays and tables at most `depth` deep. -/
def value? : Nat → Reads Toml
  | 0, text => scalar? text
  | depth + 1, text =>
    match text with
    | '[' :: rest => items? (value? depth) (rest.length + 1) [] rest
    | '\x7b' :: rest => inlineTable? (value? depth) rest
    | _ => scalar? text

def nestingLimit : Nat := 79

/-! ## Lines -/

/-- What has been read so far: all sections, and the path to the one that lines add to. -/
structure Progress where
  root : Section := .empty
  path : List String := []

def closing? (brackets : Nat) (text : List Char) : Option (List Char) :=
  if text.take brackets = List.replicate brackets ']' then endOfLine? (text.drop brackets) else none

/-- Reads the header of one of a list of sections, after its brackets. -/
def listHeader? (p : Progress) (text : List Char) : Option (Progress × List Char) := do
  let ((path, key), rest) ← key? text
  let rest ← closing? 2 rest
  let root ← p.root.openListed path key
  some (⟨root, path ++ [key]⟩, rest)

def header? (p : Progress) (text : List Char) : Option (Progress × List Char) := do
  let ((path, key), rest) ← key? text
  let rest ← closing? 1 rest
  let root ← p.root.openSection path key
  some (⟨root, path ++ [key]⟩, rest)

def assignment? (p : Progress) (text : List Char) : Option (Progress × List Char) := do
  let ((path, key), rest) ← key? text
  let rest ← (match rest with | '=' :: rest => some rest | _ => none)
  let (value, rest) ← value? nestingLimit (skipSpaces rest)
  let rest ← endOfLine? rest
  let root ← p.root.descend false (Section.store path key value) p.path
  some ({ p with root := root }, rest)

/-- Reads one line that is not blank. -/
def line? (p : Progress) (text : List Char) : Option (Progress × List Char) :=
  match text with
  | '#' :: _ => (endOfLine? text).map fun rest => (p, rest)
  | '[' :: '[' :: rest => listHeader? p rest
  | '[' :: rest => header? p rest
  | _ => assignment? p text

def lines? : Nat → Progress → List Char → Option Section
  | 0, _, _ => none
  | fuel + 1, p, text =>
    match skipBlankLines text with
    | [] => some p.root
    | rest => do
      let (p, rest) ← line? p rest
      lines? fuel p rest

def byteOrderMark : Char := '\ufeff'

/-- Reads a settings file; none if it is not well formed. -/
def read? (text : String) : Option Toml :=
  let chars := text.toList
  let chars := if chars.head? = some byteOrderMark then chars.tail else chars
  (lines? (chars.length + 1) {} chars).map Section.toToml

end LoadBearing.Toml
