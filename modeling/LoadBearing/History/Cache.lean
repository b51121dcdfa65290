import LoadBearing.Data.Number
import LoadBearing.Data.Table
import LoadBearing.History.Commit
import LoadBearing.MessagePack
import LoadBearing.Program

/-! # Keeping commits for the next run

Commits that were read once are kept in a directory, one file for each start of a history and each
number of commits asked for.  A new commit or another number is simply a miss, and so is a file that
cannot be read or that another version wrote: a cache never makes an analysis fail.
-/

namespace LoadBearing

structure CacheEntry where
  version : String
  start : String
  limit : Nat
  commits : List Commit
  deriving DecidableEq, Repr

namespace CacheEntry

/-- The version that writes entries, and the only one whose entries are read. -/
def currentVersion : String := programVersion

/-! ## Writing -/

def packRange (r : LineRange) : Packed := .array [.nat r.start, .nat r.stop]

def packChange (c : FileChange) : Packed :=
  .array [.string c.file, .array (c.ranges.map packRange)]

def packCommit (c : Commit) : Packed :=
  .array
    [ .string c.hash, .string c.author, .integer c.date, .string c.title, .bool c.isFix,
      .array (c.changes.map packChange) ]

def pack (e : CacheEntry) : Packed :=
  .array [.string e.version, .string e.start, .nat e.limit, .array (e.commits.map packCommit)]

def encode (e : CacheEntry) : List UInt8 := e.pack.write

/-! ## Reading -/

def text? : Packed → Option String
  | .text bytes | .binary bytes => SourceText.decode? bytes
  | _ => none

def count? : Packed → Option Nat
  | .integer value => if 0 ≤ value then some value.toNat else none
  | _ => none

def whole? : Packed → Option Int
  | .integer value => if value < bitRange 63 then some value else none
  | _ => none

def flag? : Packed → Option Bool
  | .bool value => some value
  | _ => none

def list? {α : Type} (read : Packed → Option α) : Packed → Option (List α)
  | .array items => items.mapM read
  | _ => none

/-- The position of the field that a key names, by its name or its number. -/
def fieldOf? (names : List String) : Packed → Option (Option Nat)
  | .integer value =>
    if 0 ≤ value then some (if value < names.length then some value.toNat else none) else none
  | .text bytes | .binary bytes =>
    some ((SourceText.decode? bytes).bind fun name => names.idxOf? name)
  | _ => none

/-- The values of the fields of a record: an array of exactly so many, or a map that has each field
    once and perhaps others. -/
def record? (names : List String) : Packed → Option (List Packed)
  | .array items => if items.length = names.length then some items else none
  | .map fields => do
    let found ← fields.mapM fun (key, value) => (fieldOf? names key).map fun at? => (at?, value)
    (List.range names.length).mapM fun position =>
      match found.filter fun field => field.1 = some position with
      | [(_, value)] => some value
      | _ => none
  | _ => none

def range? (p : Packed) : Option LineRange := do
  match ← record? ["start", "end"] p with
  | [start, stop] => some ⟨← count? start, ← count? stop⟩
  | _ => none

def change? (p : Packed) : Option FileChange := do
  match ← record? ["file", "ranges"] p with
  | [file, ranges] => some ⟨← text? file, ← list? range? ranges⟩
  | _ => none

def commit? (p : Packed) : Option Commit := do
  match ← record? ["hash", "author", "date", "message", "is_fix", "changes"] p with
  | [hash, author, date, title, isFix, changes] =>
    some ⟨← text? hash, ← text? author, ← whole? date, ← text? title, ← flag? isFix,
      ← list? change? changes⟩
  | _ => none

def unpack? (p : Packed) : Option CacheEntry := do
  match ← record? ["version", "start_commit", "limit", "commits"] p with
  | [version, start, limit, commits] =>
    some ⟨← text? version, ← text? start, ← count? limit, ← list? commit? commits⟩
  | _ => none

def decode? (bytes : List UInt8) : Option CacheEntry :=
  (Packed.ofBytes? bytes).bind unpack?

end CacheEntry

/-! ## The directory -/

abbrev CommitCache := Table (List UInt8)

namespace CommitCache

def directory : String := "." ++ programName ++ "-cache"

def fileName (start : String) (limit : Nat) : String :=
  start ++ "-" ++ toString limit ++ ".msgpack"

def load? (cache : CommitCache) (start : String) (limit : Nat) : Option (List Commit) := do
  let bytes ← Table.find? cache (fileName start limit)
  let entry ← CacheEntry.decode? bytes
  if entry.version = CacheEntry.currentVersion && entry.start = start && entry.limit = limit then
    some entry.commits
  else none

def store (cache : CommitCache) (start : String) (limit : Nat) (commits : List Commit) :
    CommitCache :=
  Table.insert cache (fileName start limit)
    (CacheEntry.encode ⟨CacheEntry.currentVersion, start, limit, commits⟩)

/-- The commits of a history: those kept, or else those it gives, which are then kept. -/
def fetch (cache : CommitCache) (source : HistorySource) (limit : Nat) :
    Except HistoryError (List Commit) × CommitCache :=
  match source.start with
  | .error e => (.error e, cache)
  | .ok start =>
    match cache.load? start limit with
    | some commits => (.ok commits, cache)
    | none =>
      match source.commits limit with
      | .error e => (.error e, cache)
      | .ok commits => (.ok commits, cache.store start limit commits)

end CommitCache

def HistorySource.fetch (source : HistorySource) (limit : Nat) :
    Except HistoryError (List Commit) := do
  let _ ← source.start
  source.commits limit

end LoadBearing
