import Narrative.Instant.Basic
import Narrative.Vocabulary

/-!
This module contains the steps of a script. A step is a tree of instructions: a step and the steps
under it.
-/

namespace Narrative

inductive Command where
  | narrate
  | speak (tone : Tone)
  | think
  | sing (tone : Tone)
  | setLocation
  | setTemperature (value : Option Float) (units : TemperatureUnits)
  | setWeather (weather : Option Weather)
  | setDate (date : Option Instant)
  | setTime (date : Option Instant)
  | setSequence (atDate : Option Instant) (autoStart : Bool)
  | sample
  | reset
  | choice
  | group
  | setBackColor
  | setMidColor
  | setForeColor
  | unknown (name : String)
deriving Inhabited

namespace Command

def tag : Command → String
  | narrate => "narrate"
  | speak _ => "speak"
  | think => "think"
  | sing _ => "sing"
  | setLocation => "setlocation"
  | setTemperature .. => "settemperature"
  | setWeather _ => "setweather"
  | setDate _ => "setdate"
  | setTime _ => "settime"
  | setSequence .. => "setsequence"
  | sample => "sample"
  | reset => "reset"
  | choice => "option"
  | group => "group"
  | setBackColor => "setbackcolor"
  | setMidColor => "setmidcolor"
  | setForeColor => "setforecolor"
  | unknown name => name

def revealsCharacter : Command → Bool
  | speak _ | think | sing _ | choice => true
  | _ => false

end Command

inductive Target where
  | unresolved
  | placeholder (visible : Bool)
  | character (index : Nat) (id : String)
  | location (index : Nat) (id : String)
  | sequence (index : Nat) (id : String)
deriving Repr, DecidableEq, Inhabited

inductive Destination where
  | sequence (index : Nat) (id : String)
  | url (address : String)
deriving Repr, DecidableEq

/--
What is authored in one element of a script, without the elements inside it. `target` and
`destination` are found from the references when the score is complete.
-/
structure Instruction where
  id : Nat
  command : Command := .narrate
  content : String := ""
  target : Target := .unresolved
  characterRef : Option String := none
  itemRef : Option String := none
  kind : Option String := none
  destinationRef : Option String := none
  destination : Option Destination := none
  delay : Float := 0.0
  append : Bool := false
deriving Inhabited

inductive Step where
  | mk (instruction : Instruction) (substeps : List Step)
deriving Inhabited

namespace Step

def instruction : Step → Instruction
  | mk i _ => i

def substeps : Step → List Step
  | mk _ steps => steps

def id (s : Step) : Nat :=
  s.instruction.id

def command (s : Step) : Command :=
  s.instruction.command

def content (s : Step) : String :=
  s.instruction.content

def target (s : Step) : Target :=
  s.instruction.target

def isDelayed (s : Step) : Bool :=
  s.instruction.delay > 0.0

def date? (s : Step) : Option Instant :=
  match s.command with
  | .setDate date | .setTime date => date
  | _ => none

mutual

def map (f : Instruction → Instruction) : Step → Step
  | mk i steps => mk (f i) (mapAll f steps)

def mapAll (f : Instruction → Instruction) : List Step → List Step
  | [] => []
  | step :: steps => map f step :: mapAll f steps

end

mutual

def instructions : Step → List Instruction
  | mk i steps => i :: instructionsOfAll steps

def instructionsOfAll : List Step → List Instruction
  | [] => []
  | step :: steps => instructions step ++ instructionsOfAll steps

end

def contains (s : Step) (id : Nat) : Bool :=
  s.instructions.any fun i => i.id == id

def markAppend (s : Step) : Step :=
  s.map fun i => { i with append := true }

mutual

def renumber (next : Nat) : Step → Step × Nat
  | mk i steps =>
    let (steps, after) := renumberAll (next + 1) steps
    (mk { i with id := next } steps, after)

def renumberAll (next : Nat) : List Step → List Step × Nat
  | [] => ([], next)
  | step :: steps =>
    let (step, next) := renumber next step
    let (steps, next) := renumberAll next steps
    (step :: steps, next)

end

end Step

end Narrative
