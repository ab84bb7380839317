import Narrative.Decimal.Strict
import Narrative.Script.Format

/-!
This module contains the reading of the command line and of the variables of the environment that
stand in for options.
-/

namespace Narrative.CommandLine

inductive UsageError where
  | unknownArgument
  | invalidValue
  | valueValidation
  | missingRequiredArgument
  | argumentConflict
  | tooManyValues
  | displayHelp
  | displayVersion
deriving Repr, DecidableEq

def UsageError.exitCode : UsageError → Nat
  | displayHelp | displayVersion => 0
  | _ => 2

inductive Switch where
  | allowInputDuringDelay
  | play
  | logJson
  | help
  | version
deriving Repr, DecidableEq

inductive Parameter where
  | script
  | format
  | delimiter
  | timeScale
  | maxSteps
  | seed
deriving Repr, DecidableEq

inductive Meaning where
  | switch (s : Switch)
  | parameter (p : Parameter)

def Meaning.ofName? (name : String) : Option Meaning :=
  match name with
  | "allow-input-during-delay" => some (.switch .allowInputDuringDelay)
  | "play" => some (.switch .play)
  | "log-json" => some (.switch .logJson)
  | "help" => some (.switch .help)
  | "version" => some (.switch .version)
  | "format" => some (.parameter .format)
  | "delimiter" => some (.parameter .delimiter)
  | "time-scale" => some (.parameter .timeScale)
  | "max-steps" => some (.parameter .maxSteps)
  | "seed" => some (.parameter .seed)
  | _ => none

structure Arguments where
  script : Option String := none
  format : Option ScriptFormat := none
  delimiter : Option String := none
  timeScale : Option Float := none
  maxSteps : Option Nat := none
  seed : Option Nat := none
  allowInputDuringDelay : Bool := false
  play : Bool := false
  logJson : Bool := false

namespace Arguments

def has (a : Arguments) : Parameter → Bool
  | .script => a.script.isSome
  | .format => a.format.isSome
  | .delimiter => a.delimiter.isSome
  | .timeScale => a.timeScale.isSome
  | .maxSteps => a.maxSteps.isSome
  | .seed => a.seed.isSome

def setValue (a : Arguments) (p : Parameter) (text : String) : Except UsageError Arguments :=
  match p with
  | .script =>
    if text == "" then .error .invalidValue else .ok { a with script := some text }
  | .format =>
    match ScriptFormat.ofName? text with
    | some format => .ok { a with format := some format }
    | none => .error .invalidValue
  | .delimiter => .ok { a with delimiter := some text }
  | .timeScale =>
    match Decimal.float? text.toList with
    | some scale => .ok { a with timeScale := some scale }
    | none => .error .valueValidation
  | .maxSteps =>
    match Decimal.count64? text.toList with
    | some n => .ok { a with maxSteps := some n }
    | none => .error .valueValidation
  | .seed =>
    match Decimal.count64? text.toList with
    | some n => .ok { a with seed := some n }
    | none => .error .valueValidation

def giveValue (a : Arguments) (p : Parameter) (text : String) : Except UsageError Arguments :=
  if a.has p then .error .argumentConflict else a.setValue p text

def turnOn (a : Arguments) (s : Switch) : Except UsageError Arguments :=
  match s with
  | .help => .error .displayHelp
  | .version => .error .displayVersion
  | .allowInputDuringDelay =>
    if a.allowInputDuringDelay then .error .argumentConflict
    else .ok { a with allowInputDuringDelay := true }
  | .play => if a.play then .error .argumentConflict else .ok { a with play := true }
  | .logJson => if a.logJson then .error .argumentConflict else .ok { a with logJson := true }

end Arguments

/--
How far the reading of a command line has come. A parameter is pending from when it is met until
something else is, and only then is its value read.
-/
structure Reading where
  arguments : Arguments := {}
  pending : Option (Parameter × Option String) := none
  trailing : Bool := false
  scriptMet : Bool := false

namespace Reading

def settle (r : Reading) : Except UsageError Reading :=
  match r.pending with
  | none => .ok r
  | some (_, none) => .error .invalidValue
  | some (p, some text) => do
    let arguments ← r.arguments.giveValue p text
    .ok { r with arguments, pending := none }

def positional (r : Reading) (text : String) : Except UsageError Reading :=
  if r.scriptMet then .error .unknownArgument
  else do
    let r ← r.settle
    .ok { r with pending := some (.script, some text), scriptMet := true }

def switchOn (r : Reading) (s : Switch) : Except UsageError Reading := do
  let r ← r.settle
  let arguments ← r.arguments.turnOn s
  .ok { r with arguments }

def long (r : Reading) (name : String) (value : Option String) : Except UsageError Reading :=
  match Meaning.ofName? name, value with
  | none, _ => .error .unknownArgument
  | some (.switch _), some _ => .error .tooManyValues
  | some (.switch s), none => r.switchOn s
  | some (.parameter p), none => do
    let r ← r.settle
    .ok { r with pending := some (p, none) }
  | some (.parameter p), some text => do
    let r ← r.settle
    let arguments ← r.arguments.giveValue p text
    .ok { r with arguments }

def plain (r : Reading) (text : String) : Except UsageError Reading :=
  match r.pending with
  | some (p, none) => .ok { r with pending := some (p, some text) }
  | _ => r.positional text

def step (r : Reading) (argument : String) : Except UsageError Reading :=
  if r.trailing then
    r.positional argument
  else
    match argument.toList with
    | ['-', '-'] => .ok { r with trailing := true }
    | '-' :: '-' :: cs =>
      let name := String.ofList (cs.takeWhile (· != '='))
      match cs.dropWhile (· != '=') with
      | [] => r.long name none
      | _ :: value => r.long name (some (String.ofList value))
    | ['-'] => r.plain argument
    | '-' :: 'h' :: _ => r.switchOn .help
    | '-' :: 'V' :: _ => r.switchOn .version
    | '-' :: _ => .error .unknownArgument
    | _ => r.plain argument

end Reading

def switchValue (text : String) : Except UsageError Bool :=
  match text with
  | "true" => .ok true
  | "false" => .ok false
  | _ => .error .invalidValue

def withEnvironment (a : Arguments) (lookup : String → Option String) :
    Except UsageError Arguments := do
  let a ← match a.format, lookup "STEPWISE_FORMAT" with
    | none, some text => a.setValue .format text
    | _, _ => .ok a
  let a ← match a.timeScale, lookup "STEPWISE_TIME_SCALE" with
    | none, some text => a.setValue .timeScale text
    | _, _ => .ok a
  let a ← match a.allowInputDuringDelay, lookup "STEPWISE_ALLOW_INPUT_DURING_DELAY" with
    | false, some text => do .ok { a with allowInputDuringDelay := ← switchValue text }
    | _, _ => .ok a
  match a.logJson, lookup "STEPWISE_LOG_JSON" with
  | false, some text => do .ok { a with logJson := ← switchValue text }
  | _, _ => .ok a

def parse (arguments : List String) (lookup : String → Option String) :
    Except UsageError Arguments := do
  let reading ← arguments.foldlM Reading.step {}
  let reading ← reading.settle
  let a ← withEnvironment reading.arguments lookup
  if a.script.isNone then .error .missingRequiredArgument else .ok a

end Narrative.CommandLine
