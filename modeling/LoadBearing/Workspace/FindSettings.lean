import LoadBearing.Settings
import LoadBearing.Workspace.Basic

/-! # The settings of a directory

The settings file of the directory or else of the nearest directory above it; without any, the
settings that hold when nothing is set.
-/

namespace LoadBearing

inductive SettingsError where
  | unreadable (path : String)
  | malformed (path : String)
  deriving DecidableEq, Repr

def SettingsError.message : SettingsError → String
  | .unreadable path => "Failed to read " ++ path
  | .malformed path => "Failed to parse " ++ path

namespace Workspace

/-- The settings file in a directory, if there is one.  The path of the directory is seen from
    `here`. -/
def settingsIn? (w : Workspace) (here : Place) (directory : String) :
    Option (Except SettingsError Settings) :=
  let path := Path.join directory Settings.fileName
  match w.locate here path with
  | .error _ => none
  | .ok place =>
    match (w.files.file? place).bind File.text? with
    | none => some (.error (.unreadable path))
    | some text =>
      match Settings.read? text with
      | none => some (.error (.malformed path))
      | some settings => some (.ok settings)

def findSettings (w : Workspace) (here : Place) (directory : String) :
    Except SettingsError Settings :=
  ((Path.ancestors directory).findSome? (w.settingsIn? here)).getD (.ok {})

end Workspace

end LoadBearing
