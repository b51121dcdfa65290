/-! # Tables and rosters

A *table* maps texts to values and is kept in increasing order of its keys; a *roster* is a list of
texts without repetition in increasing order.  Both are plain lists, so what they hold can be read
off and compared by equality.
-/

namespace LoadBearing

/-- A map from texts to values, as its entries in increasing order of the keys. -/
abbrev Table (α : Type) := List (String × α)

namespace Table

variable {α : Type}

def find? (table : Table α) (key : String) : Option α :=
  table.lookup key

def has (table : Table α) (key : String) : Bool :=
  (table.find? key).isSome

/-- Stores under `key` what `change` makes of the value stored there before. -/
def update (table : Table α) (key : String) (change : Option α → α) : Table α :=
  match table with
  | [] => [(key, change none)]
  | (other, value) :: rest =>
    if key < other then (key, change none) :: (other, value) :: rest
    else if key = other then (key, change (some value)) :: rest
    else (other, value) :: update rest key change

def insert (table : Table α) (key : String) (value : α) : Table α :=
  table.update key fun _ => value

/-- Stores a value under a key that has none yet. -/
def insertNew (table : Table α) (key : String) (value : α) : Table α :=
  table.update key fun old => old.getD value

/-- The table of a list of entries; of two entries with one key the later wins. -/
def ofList (entries : List (String × α)) : Table α :=
  entries.foldl (fun table entry => table.insert entry.1 entry.2) []

def keys (table : Table α) : List String :=
  table.map Prod.fst

end Table

namespace Roster

def insert (name : String) : List String → List String
  | [] => [name]
  | other :: rest =>
    if name < other then name :: other :: rest
    else if name = other then other :: rest
    else other :: insert name rest

def ofList (names : List String) : List String :=
  names.foldl (fun roster name => insert name roster) []

end Roster

def textLe (left right : String) : Bool :=
  !decide (right < left)

/-- The elements that are neither in `seen` nor earlier in the list. -/
def firsts (seen : List String) : List String → List String
  | [] => []
  | name :: rest =>
    if seen.contains name then firsts seen rest else name :: firsts (name :: seen) rest

end LoadBearing
