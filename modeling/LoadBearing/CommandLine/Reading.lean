import LoadBearing.CommandLine.Setting

/-! # Reading the words of a command

The words for one command are read one after the other.  What a word sets is not checked when it is
read but when the next word that sets something is, so of two faults the one that is met first in
that order counts.  Words after `--` are never options.
-/

namespace LoadBearing

structure Reading where
  /-- what is set, with its value -/
  values : List (Setting × String) := []
  /-- what was named last, with its value if it has come; not checked yet -/
  pending : Option (Setting × Option String) := none
  /-- whether the next word may be the value of what was named last -/
  awaits : Bool := false
  /-- whether the argument of the command has come -/
  filled : Bool := false
  /-- whether `--` has come -/
  literal : Bool := false
  deriving DecidableEq, Repr

namespace Reading

def value? (r : Reading) (setting : Setting) : Option String := r.values.lookup setting

def has (r : Reading) (setting : Setting) : Bool := (r.value? setting).isSome

/-- Sets a value, unless it is set already. -/
def set (r : Reading) (setting : Setting) (value : String) : Except Usage Reading :=
  if r.has setting then .error .repeatedOption
  else do
    setting.check value
    .ok { r with values := (setting, value) :: r.values }

def settle (r : Reading) : Except Usage Reading :=
  match r.pending with
  | none => .ok r
  | some (_, none) => .error .invalidValue
  | some (setting, some value) => { r with pending := none }.set setting value

def switch (topic : Topic) (r : Reading) (setting : Setting) : Except Usage Reading := do
  let r ← r.settle
  match setting with
  | .help => .error (.help topic)
  | .version => .error .version
  | _ => ({ r with awaits := false } : Reading).set setting "true"

def long (topic : Topic) (r : Reading) (name : String) (value? : Option String) :
    Except Usage Reading :=
  match topic.option? name, value? with
  | none, _ => .error .unknownArgument
  | some setting, some value =>
    if setting.takesValue then do
      let r ← r.settle
      ({ r with awaits := false } : Reading).set setting value
    else .error .unexpectedValue
  | some setting, none =>
    if setting.takesValue then do
      let r ← r.settle
      .ok { r with pending := some (setting, none), awaits := true }
    else r.switch topic setting

def letters (topic : Topic) : Reading → List Char → Except Usage Reading
  | r, [] => .ok r
  | r, letter :: rest =>
    match topic.letterOption? letter with
    | none => .error .unknownArgument
    | some setting => do letters topic (← r.switch topic setting) rest

def argument (topic : Topic) (r : Reading) (word : String) : Except Usage Reading :=
  match topic.argument? with
  | some setting =>
    if r.filled then .error .unknownArgument
    else do
      let r ← r.settle
      .ok { r with pending := some (setting, some word), filled := true }
  | none =>
    if r.literal && (Topic.ofWord? word).isSome then .error .unknownArgument
    else .error .unknownCommand

def longParts (body : String) : String × Option String :=
  match Text.cut? "=" body with
  | some (name, value) => (name, some value)
  | none => (body, none)

def step (topic : Topic) (r : Reading) (word : String) : Except Usage Reading :=
  if r.literal then r.argument topic word
  else if word = "--" then .ok { r with literal := true }
  else
    match word.toList with
    | '-' :: '-' :: body =>
      let (name, value?) := longParts (String.ofList body)
      r.long topic name value?
    | '-' :: letter :: rest => r.letters topic (letter :: rest)
    | _ =>
      match r.awaits, r.pending with
      | true, some (setting, none) =>
        .ok { r with pending := some (setting, some word), awaits := false }
      | _, _ => r.argument topic word

def ofWords (topic : Topic) : Reading → List String → Except Usage Reading
  | r, [] => r.settle
  | r, word :: rest => do ofWords topic (← r.step topic word) rest

end Reading

end LoadBearing
