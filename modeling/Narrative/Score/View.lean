import Narrative.Score.Basic
import Narrative.Step.Record

/-!
This module contains the view of a score that is shown to the audience, and the record of an event.
-/

namespace Narrative

structure CharacterView where
  id : String
  fullName : String
deriving Repr, DecidableEq

structure View where
  title : String
  primaryCredits : String
  locationId : String
  locationName : String
  temperature : Float
  units : TemperatureUnits
  weather : Weather
  date : Instant
  palette : Palette
  currentSequenceId : Option String
  queuedSequenceIds : List String
  visibleCharacters : List CharacterView
  delayEnd : Option Instant
  playing : Bool

def Score.view (s : Score) : View where
  title := s.metadata.title
  primaryCredits := s.metadata.primaryCredits
  locationId := s.world.location.id
  locationName := s.world.location.name
  temperature := s.world.temperature
  units := s.world.units
  weather := s.world.weather
  date := s.world.date
  palette := s.world.palette
  currentSequenceId := s.currentSequence?.map (·.id)
  queuedSequenceIds := s.queuedIds
  visibleCharacters := (s.characters.filter (·.visible)).map fun c => ⟨c.id, c.fullName⟩
  delayEnd := s.delayEnd
  playing := s.playing

def Palette.toJson (p : Palette) : Json :=
  .obj [("back", .str p.back), ("mid", .str p.mid), ("fore", .str p.fore)]

def CharacterView.toJson (c : CharacterView) : Json :=
  .obj [("id", .str c.id), ("full_name", .str c.fullName)]

def View.toJson (v : View) : Json :=
  .obj
    [ ("title", .str v.title)
    , ("primary_credits", .str v.primaryCredits)
    , ("location_id", .str v.locationId)
    , ("location_name", .str v.locationName)
    , ("temperature", .num v.temperature)
    , ("temperature_units", .str v.units.name)
    , ("weather", .str v.weather.name)
    , ("date", v.date.toJson)
    , ("palette", v.palette.toJson)
    , ("current_sequence_id", .ofOption .str v.currentSequenceId)
    , ("queued_sequence_ids", .arr (v.queuedSequenceIds.map .str))
    , ("visible_characters", .arr (v.visibleCharacters.map CharacterView.toJson))
    , ("delay_end_time", .ofOption Instant.toJson v.delayEnd)
    , ("is_playing", .bool v.playing) ]

namespace Event

def typeName : String :=
  "score.step_executed"

def payload (e : Event) : Json :=
  .record
    [("StepExecuted", .record [("sequence_id", .str e.sequenceId), ("step", e.step.toJson)])]

def toLine (e : Event) : Json :=
  .obj
    [ ("sequence_number", .int e.number)
    , ("event_type", .str typeName)
    , ("occurred_at", e.occurredAt.toJson)
    , ("payload", e.payload) ]

end Event

end Narrative
