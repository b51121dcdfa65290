import LoadBearing.CommandLine.Invocation
import LoadBearing.Decimal.Fixed
import LoadBearing.Program

/-! # Explanations

The text that explains the program or one of its commands: what it is for, how it is called, and a
table of commands, arguments and options.  In each table the remarks start in one column.
-/

namespace LoadBearing

def versionLine : String := programName ++ " " ++ programVersion ++ "\n"

def Setting.remark (topic : Topic) : Setting → String
  | .format => "Output format [possible values: terminal, json]"
  | .verbose => "Debug logging on stderr (RUST_LOG takes precedence)"
  | .noColor => "Disable colored output"
  | .path =>
    match topic with
    | .analyse => "Path to analyze (default: current directory)"
    | .create => "Path to initialize (default: current directory)"
    | _ => "Directory inside the repository to analyze (default: current directory)"
  | .noHistory =>
    if topic = .compare then "Skip git history correlation at both refs"
    else "Skip git history correlation"
  | .noCache => "Ignore and do not write the commit history cache"
  | .top => "Max items per terminal section (overrides config)"
  | .range => "\x60base..head\x60, \x60base...head\x60, or \x60base\x60 (head = HEAD)"
  | .failOnStressed => "Exit with code 1 when any function is stressed"
  | .help => "Print help"
  | .version => "Print version"

def Setting.placeholder (setting : Setting) : String :=
  String.ofList (setting.name.toList.map Char.toUpper)

def Setting.usage (setting : Setting) : String :=
  let letter :=
    match setting.letter? with
    | some c => "-" ++ c.toString ++ ", "
    | none => "    "
  let value := if setting.takesValue then " <" ++ setting.placeholder ++ ">" else ""
  letter ++ "--" ++ setting.name ++ value

namespace Topic

def about : Topic → String
  | .program => "Find the functions your codebase quietly depends on"
  | .analyse => "Analyze a code base (default command)"
  | .compare => "Compare function health between two git refs"
  | .create => "Initialize .faultline.toml configuration"
  | .explain => "Print this message or the help of the given subcommand(s)"

def argumentRow? (topic : Topic) : Option (String × String) :=
  match topic with
  | .explain => some ("[COMMAND]...", "Print help for the subcommand(s)")
  | _ => topic.argument?.map fun setting =>
    let name := setting.placeholder
    (if setting = .range then "<" ++ name ++ ">" else "[" ++ name ++ "]", setting.remark topic)

def callLine (topic : Topic) : String :=
  let tail :=
    match topic with
    | .program => " [OPTIONS] [COMMAND]"
    | _ =>
      let argument := (topic.argumentRow?.map fun row => " " ++ row.1).getD ""
      " " ++ topic.word ++ " [OPTIONS]" ++ argument
  "Usage: " ++ programName ++ tail ++ "\n"

end Topic

/-- A table with a title; the second column starts two blanks after the widest first one. -/
def helpTable (title : String) (rows : List (String × String)) : String :=
  let width := (rows.map fun row => row.1.length).foldl max 0
  let line (row : String × String) : String :=
    "  " ++ Decimal.padRight (width + 2) ' ' row.1 ++ row.2 ++ "\n"
  title ++ ":\n" ++ String.join (rows.map line)

def Topic.help (topic : Topic) : String :=
  let commands :=
    if topic = .program then
      [helpTable "Commands" (Topic.commands.map fun command => (command.word, command.about))]
    else []
  let arguments := topic.argumentRow?.toList.map fun row => helpTable "Arguments" [row]
  let options :=
    [helpTable "Options" (topic.options.map fun setting => (setting.usage, setting.remark topic))]
  "\n".intercalate ([topic.about ++ "\n", topic.callLine] ++ commands ++ arguments ++ options)

end LoadBearing
