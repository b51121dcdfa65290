import LoadBearing.Ignore.Glob
import LoadBearing.Text.Blank
import LoadBearing.Text.Split

/-! # Ignore rules

One line of an ignore file.  A line with a slash in it is a path from the directory of the file, any
other line a name at any depth.  Of several rules that match, the last decides.
-/

namespace LoadBearing

/-- A rule that says which paths to ignore, or not to ignore after all. -/
structure IgnoreRule where
  /-- whether matching paths are kept -/
  keeps : Bool
  /-- whether only directories match -/
  onlyDirectories : Bool
  glob : Glob

namespace IgnoreRule

/-- A line without the blanks at its end, unless an escaped blank ends it. -/
def withoutTail (line : String) : String :=
  if Text.endsWith line "\\ " then line else String.ofList (Text.trimEnd line.toList)

/-- The pattern for a line without its marks: a bare name may stand at any depth, and `dir/**` means
    what is inside. -/
def patternOf (anchored : Bool) (body : String) : String :=
  let anywhere := !anchored && !body.toList.contains '/' && body ≠ "**"
  let pattern := if anywhere then "**/" ++ body else body
  if Text.endsWith pattern "/**" then pattern ++ "/*" else pattern

/-- The body of a line without a slash at its end, which may be escaped. -/
def withoutSlash (body : String) : String :=
  let body := String.ofList body.toList.dropLast
  if Text.endsWith body "\\" then String.ofList body.toList.dropLast else body

def ofBody (lenient keeps anchored : Bool) (body : String) : Except GlobError IgnoreRule := do
  let onlyDirectories := Text.endsWith body "/"
  let body := if onlyDirectories then withoutSlash body else body
  let glob ← Glob.parse lenient (patternOf anchored body)
  .ok ⟨keeps, onlyDirectories, glob⟩

/-- Reads a line; a comment or a blank line is no rule. -/
def ofLine (lenient : Bool) (line : String) : Except GlobError (Option IgnoreRule) :=
  let body := withoutTail line
  if Text.startsWith line "#" || body = "" then .ok none
  else if Text.startsWith body "\\!" || Text.startsWith body "\\#" then
    some <$> ofBody lenient false false (String.ofList body.toList.tail)
  else
    let keeps := Text.startsWith body "!"
    let body := (Text.dropStart? body "!").getD body
    let anchored := Text.startsWith body "/"
    let body := (Text.dropStart? body "/").getD body
    some <$> ofBody lenient keeps anchored body

def isMatch (rule : IgnoreRule) (path : String) (isDirectory : Bool) : Bool :=
  (!rule.onlyDirectories || isDirectory) && rule.glob.isMatch (SourceText.ofString path).bytes

def verdict? (rules : List IgnoreRule) (path : String) (isDirectory : Bool) : Option Bool :=
  (rules.reverse.find? fun rule => rule.isMatch path isDirectory).map fun rule => !rule.keeps

/-- The rules of the lines of an ignore file; lines that are no rules are skipped. -/
def ofLines (lines : List String) : List IgnoreRule :=
  lines.filterMap fun line =>
    match ofLine true line with
    | .ok rule => rule
    | .error _ => none

end IgnoreRule

end LoadBearing
