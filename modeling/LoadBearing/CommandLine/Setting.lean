import LoadBearing.Data.Number
import LoadBearing.Settings
import LoadBearing.Text.Split

/-! # What a command line can set

The options and arguments of the program, which of its commands take them, and which values they
take.
-/

namespace LoadBearing

inductive Setting where
  | format
  | verbose
  | noColor
  | path
  | noHistory
  | noCache
  | top
  | range
  | failOnStressed
  | help
  | version
  deriving DecidableEq, Repr

namespace Setting

def name : Setting → String
  | .format => "format"
  | .verbose => "verbose"
  | .noColor => "no-color"
  | .path => "path"
  | .noHistory => "no-git"
  | .noCache => "no-cache"
  | .top => "top"
  | .range => "range"
  | .failOnStressed => "fail-on-stressed"
  | .help => "help"
  | .version => "version"

def letter? : Setting → Option Char
  | .verbose => some 'v'
  | .help => some 'h'
  | .version => some 'V'
  | _ => none

def takesValue : Setting → Bool
  | .format | .path | .top | .range => true
  | _ => false

end Setting

inductive Topic where
  /-- the program as a whole -/
  | program
  | analyse
  | compare
  | create
  /-- the command that explains the others -/
  | explain
  deriving DecidableEq, Repr

namespace Topic

def commands : List Topic := [.analyse, .compare, .create, .explain]

def word : Topic → String
  | .program => ""
  | .analyse => "analyze"
  | .compare => "diff"
  | .create => "init"
  | .explain => "help"

def ofWord? (word : String) : Option Topic := commands.find? fun topic => topic.word = word

/-- The options in the order in which they are explained. -/
def options : Topic → List Setting
  | .program => [.format, .verbose, .noColor, .help, .version]
  | .analyse => [.format, .noHistory, .noCache, .verbose, .noColor, .top, .help]
  | .compare => [.format, .path, .noHistory, .verbose, .failOnStressed, .noColor, .help]
  | .create => [.format, .verbose, .noColor, .help]
  | .explain => [.format, .verbose, .noColor]

/-- What the word of a command stands for that is no option. -/
def argument? : Topic → Option Setting
  | .program => none
  | .analyse => some .path
  | .compare => some .range
  | .create => some .path
  | .explain => none

def option? (topic : Topic) (name : String) : Option Setting :=
  topic.options.find? fun setting => setting.name = name

def letterOption? (topic : Topic) (letter : Char) : Option Setting :=
  topic.options.find? fun setting => setting.letter? = some letter

end Topic

/-- Why a command line asks for no work. -/
inductive Usage where
  /-- an explanation was asked for -/
  | help (topic : Topic)
  /-- the version was asked for -/
  | version
  | unknownArgument
  | unknownCommand
  /-- an option was given twice -/
  | repeatedOption
  | missingArgument
  /-- a value is missing, or is none of those allowed -/
  | invalidValue
  | notANumber
  /-- a value was given to an option that takes none -/
  | unexpectedValue
  deriving DecidableEq, Repr

/-! ## Values -/

def Setting.largest : Nat := bitRange 64 - 1

/-- Reads a number that may have a plus sign. -/
def Setting.number? (text : String) : Option Nat :=
  let digits := ((Text.dropStart? text "+").getD text).toList
  if digits.isEmpty || digits.any fun c => !c.isDigit then none
  else
    let value := digits.foldl (fun n c => n * 10 + (c.toNat - '0'.toNat)) 0
    if value ≤ largest then some value else none

def Format.ofWord? : String → Option Format
  | "terminal" => some .terminal
  | "json" => some .json
  | _ => none

def Setting.check (setting : Setting) (value : String) : Except Usage Unit :=
  match setting with
  | .format => if (Format.ofWord? value).isSome then .ok () else .error .invalidValue
  | .path => if value = "" then .error .invalidValue else .ok ()
  | .top => if (number? value).isSome then .ok () else .error .notANumber
  | _ => .ok ()

end LoadBearing
