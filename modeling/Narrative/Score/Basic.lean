import Narrative.Score.World
import Narrative.Sequence.Playback
import Narrative.Timeline
import Narrative.Timing

/-!
This module contains scores: all that is known of a script, the state of its world, and how far its
playback has come.
-/

namespace Narrative

structure Metadata where
  title : String := ""
  description : String := ""
  primaryCredits : String := ""
  secondaryCredits : String := ""
  version : Nat := 1
  kind : String := "basic"
deriving Repr, DecidableEq, Inhabited

structure PlaybackOptions where
  allowInputDuringDelay : Bool := false
deriving Repr, DecidableEq, Inhabited

structure Event where
  number : Nat
  occurredAt : Instant
  sequenceId : String
  step : Step
deriving Inhabited

structure Score where
  metadata : Metadata := {}
  timing : Timing := {}
  options : PlaybackOptions := {}
  sequences : List Sequence := []
  characters : List Character := []
  locations : List Location := []
  world : World
  sequenceIndex : Nat := 0
  current : Option Nat := none
  /-- The places of the sequences pushed for one playback, the last one pushed first. -/
  queue : List Nat := []
  delayEnd : Option Instant := none
  triggerTime : Option Instant := none
  playing : Bool := false
  playTask : Option Nat := none
  timeline : Timeline := {}
  events : Array Event := #[]
  eventCount : Nat := 0
deriving Inhabited

inductive ScoreError where
  | notFound (kind : ItemKind) (id : String)
deriving Repr, DecidableEq

def ScoreError.message : ScoreError → String
  | notFound kind id => kind.name ++ " not found: " ++ id

def lastIndex? (p : α → Bool) : List α → Option Nat
  | [] => none
  | a :: as =>
    match lastIndex? p as with
    | some index => some (index + 1)
    | none => if p a then some 0 else none

namespace Score

def empty (now : Instant) : Score :=
  { world := { date := now } }

def addSequence (s : Score) (sequence : Sequence) : Score :=
  { s with sequences := s.sequences ++ [sequence] }

def addCharacter (s : Score) (character : Character) : Score :=
  { s with characters := s.characters ++ [character] }

def addLocation (s : Score) (location : Location) : Score :=
  { s with locations := s.locations ++ [location] }

def sequenceNamed? (s : Score) (id : String) : Option Nat :=
  lastIndex? (fun sequence => sequence.id == id) s.sequences

def characterNamed? (s : Score) (id : String) : Option Nat :=
  lastIndex? (fun character => character.id == id) s.characters

def locationNamed? (s : Score) (id : String) : Option Nat :=
  lastIndex? (fun location => location.id == id) s.locations

def findSequence (s : Score) (id : String) : Except ScoreError Nat :=
  match s.sequenceNamed? id with
  | some index => .ok index
  | none => .error (.notFound .sequence id)

inductive Item where
  | character (character : Character)
  | location (location : Location)
  | sequence (sequence : Sequence)

def item? (s : Score) (kind : ItemKind) (id : String) : Option Item :=
  match kind with
  | .character => (s.characterNamed? id).bind fun i => s.characters[i]?.map .character
  | .location => (s.locationNamed? id).bind fun i => s.locations[i]?.map .location
  | .sequence => (s.sequenceNamed? id).bind fun i => s.sequences[i]?.map .sequence

def currentSequence? (s : Score) : Option Sequence :=
  s.current.bind fun index => s.sequences[index]?

def queuedIds (s : Score) : List String :=
  s.queue.reverse.filterMap fun index => s.sequences[index]?.map (·.id)

def isBusy (s : Score) (now : Instant) : Bool :=
  match s.delayEnd with
  | some stop => now < stop
  | none => false

def nextDue? (s : Score) : Option Instant :=
  s.timeline.nextDue?

def takeEvents (s : Score) : List Event × Score :=
  (s.events.toList, { s with events := #[] })

def clearEvents (s : Score) : Score :=
  { s with events := #[] }

def setLocation (s : Score) (id : String) : Except ScoreError Score :=
  match (s.locationNamed? id).bind fun index => s.locations[index]? with
  | some location => .ok { s with world.location := location }
  | none => .error (.notFound .location id)

def reset (s : Score) : Score :=
  { s with
    sequences := s.sequences.map Sequence.rewind
    sequenceIndex := 0
    current := none
    queue := [] }

end Score

end Narrative
