import LoadBearing.CommandLine.Run
import LoadBearing.Json.Reader
import LoadBearing.Workspace.Document

/-! # The program

Reads the document of a workspace from standard input, runs the command line in it, and writes the
files that the run made below the current directory.
-/

namespace LoadBearing

/-- The path of the workspace when the document gives none. -/
def defaultRoot : String := "/workspace"

def changedFiles (before after : Workspace) : List (Place × File) :=
  after.files.files.filter fun (place, file) =>
    match before.files.file? place with
    | some old => old.bytes ≠ file.bytes
    | none => true

def writeOut (place : Place) (file : File) : IO Unit := do
  unless place.dropLast.isEmpty do IO.FS.createDirAll (Place.text place.dropLast)
  IO.FS.writeBinFile place.text ⟨file.bytes.toArray⟩

end LoadBearing

open LoadBearing in
def main (words : List String) : IO UInt32 := do
  let text ← (← IO.getStdin).readToEnd
  let document := (Json.read? text).getD .null
  let before := Workspace.ofJson ((document.textAt? "root").getD defaultRoot) document
  let (outcome, after) := before.run (.ofText (document.textAt "directory")) words
  for (place, file) in changedFiles before after do
    writeOut place file
  IO.print outcome.output
  if let some message := outcome.failure then
    IO.eprintln ("Error: " ++ message)
  return outcome.code.toUInt32
