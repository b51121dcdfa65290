import LoadBearing.CommandLine.Reading

/-! # Command lines

A command line may start with options for the program as a whole; the word for a command ends them.
The words after it are read for that command, and their faults count before those of an option that
still waits to be checked.
-/

namespace LoadBearing

inductive Command where
  | analyse (path : Option String) (noHistory noCache : Bool) (top : Option Nat)
  | compare (range : String) (path : Option String) (noHistory failOnStressed : Bool)
  | create (path : Option String)
  deriving DecidableEq, Repr

structure Invocation where
  /-- without a command the current directory is analysed -/
  command : Option Command
  format : Option Format
  verbose : Bool
  noColor : Bool
  deriving DecidableEq, Repr

namespace Invocation

def commandOf (topic : Topic) (r : Reading) : Except Usage (Option Command) :=
  match topic with
  | .analyse =>
    .ok (some (.analyse (r.value? .path) (r.has .noHistory) (r.has .noCache)
      ((r.value? .top).bind Setting.number?)))
  | .compare =>
    match r.value? .range with
    | none => .error .missingArgument
    | some range =>
      .ok (some (.compare range (r.value? .path) (r.has .noHistory) (r.has .failOnStressed)))
  | .create => .ok (some (.create (r.value? .path)))
  | .program | .explain => .ok none

def explanation : List String → Usage
  | [] => .help .program
  | [word] =>
    match Topic.ofWord? word with
    | some topic => .help topic
    | none => .unknownCommand
  | _ => .unknownCommand

/-- What was read before and after the word for a command, as a whole: of an option given on both
    sides the later counts. -/
def assemble (outer inner : Reading) (command : Option Command) : Invocation where
  command := command
  format := ((inner.value? .format).or (outer.value? .format)).bind Format.ofWord?
  verbose := inner.has .verbose || outer.has .verbose
  noColor := inner.has .noColor || outer.has .noColor

def ofWords (r : Reading) : List String → Except Usage Invocation
  | [] => do .ok (assemble (← r.settle) {} none)
  | word :: rest =>
    match if r.literal || r.awaits then none else Topic.ofWord? word with
    | some .explain => .error (explanation rest)
    | some topic => do
      let inner ← Reading.ofWords topic {} rest
      let command ← commandOf topic inner
      .ok (assemble (← r.settle) inner command)
    | none => do ofWords (← r.step .program word) rest

def parse (words : List String) : Except Usage Invocation := ofWords {} words

end Invocation

end LoadBearing
