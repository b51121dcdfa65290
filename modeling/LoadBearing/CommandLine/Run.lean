import LoadBearing.CommandLine.Help
import LoadBearing.Report.Encode
import LoadBearing.Report.Terminal
import LoadBearing.Workspace.Compare
import LoadBearing.Workspace.FindSettings

/-! # Running a command line

What a command line prints, how it ends and what it leaves in the workspace.  Output goes to no
terminal, so it has no color.
-/

namespace LoadBearing

structure Outcome where
  code : Nat := 0
  output : String := ""
  failure : Option String := none
  deriving DecidableEq, Repr

namespace Outcome

def printed (output : String) : Outcome := { output := output }

def failed (message : String) : Outcome := { code := 1, failure := some message }

def ofUsage : Usage → Outcome
  | .help topic => printed topic.help
  | .version => printed versionLine
  | _ => { code := 2 }

end Outcome

namespace Workspace

def currentDirectory : String := "."

def fullPath (w : Workspace) (here : Place) (path : String) : String :=
  match w.locate here path with
  | .ok place => w.pathOf place
  | .error _ => path

def settingsFor (w : Workspace) (here : Place) (path : String) (noHistory : Bool) :
    Except SettingsError Settings := do
  let settings ← w.findSettings here path
  if noHistory then .ok { settings with history := { settings.history with enabled := false } }
  else .ok settings

def runAnalyse (w : Workspace) (here : Place) (format : Option Format) (path : Option String)
    (noHistory noCache : Bool) (top : Option Nat) : Outcome × Workspace :=
  let path := w.fullPath here (path.getD currentDirectory)
  match w.settingsFor here path noHistory with
  | .error e => (.failed e.message, w)
  | .ok settings =>
    match w.analyse here path settings (settings.history.cache && !noCache) with
    | (.error e, w) => (.failed e.message, w)
    | (.ok report, w) =>
      let output :=
        match settings.format format with
        | .json => Encode.reportText report ++ "\n"
        | .terminal => Terminal.report false (top.getD settings.output.maxItems) report ++ "\n"
      (.printed output, w)

def runCompare (w : Workspace) (here : Place) (format : Option Format) (range : String)
    (path : Option String) (noHistory failOnStressed : Bool) : Outcome × Workspace :=
  match RevisionRange.parse range with
  | .error e => (.failed e.message, w)
  | .ok range =>
    let path := w.fullPath here (path.getD currentDirectory)
    match w.settingsFor here path noHistory with
    | .error e => (.failed e.message, w)
    | .ok settings =>
      match w.compare here path range settings settings.history.cache with
      | (.error e, w) => (.failed e.message, w)
      | (.ok comparison, w) =>
        let output :=
          match settings.format format with
          | .json => Encode.comparisonText comparison ++ "\n"
          | .terminal => Terminal.comparison false settings.output.maxItems comparison
        let gate := failOnStressed || settings.comparison.failOnStressed
        let code := if gate && comparison.hasStressed then 1 else 0
        ({ code := code, output := output }, w)

def createdText (path : String) : String :=
  "Created " ++ Settings.fileName ++ " at " ++ path ++ "\n" ++
    "\nYou can now customize the configuration and run:\n" ++ "  " ++ programName ++ " analyze\n"

def presentText (path : String) : String :=
  Settings.fileName ++ " already exists at " ++ path ++ "\n"

/-- Writes a settings file with the settings that hold when nothing is set. -/
def runCreate (w : Workspace) (here : Place) (path : Option String) : Outcome × Workspace :=
  let directory := path.getD currentDirectory
  let path := Path.join directory Settings.fileName
  match w.locate here path, w.locate here directory with
  | .ok _, _ => (.printed (presentText path), w)
  | _, .error e => (.failed e.message, w)
  | _, .ok place =>
    let bytes := (SourceText.ofString ((Settings.write? {}).getD "")).bytes
    match w.files.write (place ++ [Settings.fileName]) { bytes := bytes } with
    | .error e => (.failed e.message, w)
    | .ok files => (.printed (createdText path), { w with files := files })

def runCommand (w : Workspace) (here : Place) (format : Option Format) :
    Command → Outcome × Workspace
  | .analyse path noHistory noCache top => w.runAnalyse here format path noHistory noCache top
  | .compare range path noHistory failOnStressed =>
    w.runCompare here format range path noHistory failOnStressed
  | .create path => w.runCreate here path

def run (w : Workspace) (here : Place) (words : List String) : Outcome × Workspace :=
  match Invocation.parse words with
  | .error usage => (.ofUsage usage, w)
  | .ok invocation =>
    w.runCommand here invocation.format
      (invocation.command.getD (.analyse none false false none))

end Workspace

end LoadBearing
