import Narrative.Instant.Printer
import Narrative.Json
import Narrative.Step

/-!
This module contains the JSON record of a step, in which steps are told to the outside.
-/

namespace Narrative

def Instant.toJson (t : Instant) : Json :=
  .str t.toString

namespace Command

def fields : Command → List (String × Json)
  | speak tone | sing tone => [("tone", .str tone.name)]
  | setTemperature value units => [("value", .ofOption .num value), ("units", .str units.name)]
  | setWeather weather => [("weather", .ofOption (fun w => .str w.name) weather)]
  | setDate date | setTime date => [("date", .ofOption Instant.toJson date)]
  | setSequence atDate autoStart =>
    [("at_date", .ofOption Instant.toJson atDate), ("auto_start", .bool autoStart)]
  | _ => []

def toJson : Command → Json
  | unknown name => .record [("tag", .str "unknown"), ("name", .str name)]
  | command => .record (("tag", .str command.tag) :: command.fields)

end Command

def referenceToJson (kind : String) (index : Nat) (id : String) : Json :=
  .record [(kind, .record [("index", .int index), ("id", .str id)])]

def Target.toJson : Target → Json
  | .unresolved => .str "unresolved"
  | .placeholder visible => .record [("placeholder", .record [("visible", .bool visible)])]
  | .character index id => referenceToJson "character" index id
  | .location index id => referenceToJson "location" index id
  | .sequence index id => referenceToJson "sequence" index id

def Destination.toJson : Destination → Json
  | .sequence index id => referenceToJson "sequence" index id
  | .url address => .record [("url", .str address)]

def Instruction.fields (i : Instruction) : List (String × Json) :=
  [ ("id", .int i.id)
  , ("command", i.command.toJson)
  , ("content", .str i.content)
  , ("target", i.target.toJson)
  , ("character_ref", .ofOption .str i.characterRef)
  , ("item_ref", .ofOption .str i.itemRef)
  , ("kind", .ofOption .str i.kind)
  , ("destination_ref", .ofOption .str i.destinationRef)
  , ("destination", .ofOption Destination.toJson i.destination)
  , ("delay", .num i.delay)
  , ("append", .bool i.append) ]

namespace Step

mutual

def toJson : Step → Json
  | mk i steps => .record (i.fields ++ [("substeps", .arr (allToJson steps))])

def allToJson : List Step → List Json
  | [] => []
  | step :: steps => toJson step :: allToJson steps

end

end Step

end Narrative
