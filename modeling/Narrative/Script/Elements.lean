import Narrative.Decimal.Leading
import Narrative.Instant.Parser
import Narrative.Markup.Reader
import Narrative.Score.Directory
import Narrative.Script.Grouping

/-!
This module contains scripts in XML. What is known by its element may be anywhere in the document, and
the root element may have any name. What is missing or cannot be read has its default.
-/

namespace Narrative.Script

open Markup (Node)

def toneOf (node : Node) : Tone :=
  ((node.attribute? "tone").bind Tone.ofName?).getD .normal

def commandOf (node : Node) (content : String) : Command :=
  match Text.lowercase node.name with
  | "narrate" => .narrate
  | "speak" => .speak (toneOf node)
  | "think" => .think
  | "sing" => .sing (toneOf node)
  | "setlocation" => .setLocation
  | "settemperature" =>
    .setTemperature (Decimal.leadingFloat? content.toList)
      (((node.attribute? "units").bind TemperatureUnits.ofName?).getD .celsius)
  | "setweather" => .setWeather (Weather.ofName? content)
  | "setdate" => .setDate (Instant.ofString? content)
  | "settime" => .setTime (Instant.ofString? content)
  | "setsequence" =>
    .setSequence ((node.attribute? "atDate").bind Instant.ofString?)
      (node.attribute? "autoStart" == some "true")
  | "sample" => .sample
  | "reset" => .reset
  | "option" => .choice
  | "group" => .group
  | "setbackcolor" => .setBackColor
  | "setmidcolor" => .setMidColor
  | "setforecolor" => .setForeColor
  | name => .unknown name

def positive? (node : Node) (name : String) : Option Float :=
  match (node.attribute? name).bind fun text => Decimal.leadingFloat? text.toList with
  | some x => if x > 0.0 then some x else none
  | none => none

def instructionOf (node : Node) : Instruction where
  id := 0
  command := commandOf node node.content
  content := node.content
  characterRef := node.attribute? "character"
  itemRef := node.attribute? "itemRef"
  kind := node.attribute? "type"
  destinationRef := node.attribute? "destination"
  delay := (positive? node "delay").getD 0.0
  append := node.attribute? "append" == some "true"

mutual

def stepOf : Node → Step
  | .text content => .mk (instructionOf (.text content)) []
  | .element name attributes children =>
    .mk (instructionOf (.element name attributes children)) (stepsOf children)

def stepsOf : List Node → List Step
  | [] => []
  | .text _ :: nodes => stepsOf nodes
  | .element name attributes children :: nodes =>
    stepOf (.element name attributes children) :: stepsOf nodes

end

def sequenceSteps (node : Node) : List Step :=
  let plan := (node.attribute? "grouping").bind fun pattern =>
    planGroups? pattern.toList node.childElements
  match plan with
  | none => stepsOf node.children
  | some groups =>
    groups.map fun members => group (members.map fun (slot, element) => place slot (stepOf element))

def idOf (kind : String) (index : Nat) (node : Node) : String :=
  (node.attribute? "id").getD (kind ++ toString index)

def sequenceOf (index : Nat) (node : Node) : Sequence where
  id := idOf "sequence" index node
  steps := sequenceSteps node
  repeats := (node.attribute? "repeat").isSome
  count := (node.attribute? "repeat").bind fun text => Decimal.leadingCount? text.toList
  shuffle := node.attribute? "shuffle" == some "true"
  grouping := node.attribute? "grouping"

def numberSequences (next : Nat) : List Sequence → List Sequence
  | [] => []
  | sequence :: sequences =>
    let (steps, next) := Step.renumberAll next sequence.steps
    { sequence with steps } :: numberSequences next sequences

def characterOf (index : Nat) (node : Node) : Character :=
  let visible := match node.attribute? "visible" with
    | some "true" => some true
    | some "false" => some false
    | _ => none
  .authored (idOf "character" index node) ((node.attribute? "firstName").getD "")
    ((node.attribute? "lastName").getD "") visible

def locationOf (index : Nat) (node : Node) : Location :=
  let coordinate (name : String) : Float :=
    ((node.attribute? name).bind fun text => Decimal.leadingFloat? text.toList).getD 0.0
  { id := idOf "location" index node
    latitude := coordinate "lat"
    longitude := coordinate "lon"
    name := node.content }

def metadataOf (root : Node) : Metadata :=
  let text? (name : String) : Option String := (root.firstNamed? name).map Node.content
  let kind := ((text? "type").map Text.trimmed).getD ""
  { title := (text? "title").getD ""
    description := (text? "description").getD ""
    primaryCredits := (text? "primaryCredits").getD ""
    secondaryCredits := (text? "secondaryCredits").getD ""
    version := ((text? "version").bind fun text => Decimal.leadingCount? text.toList).getD 1
    kind := if kind == "" then "basic" else kind }

def timingOf (root : Node) : Timing :=
  match root.firstNamed? "pulse" with
  | none => {}
  | some pulse =>
    let standard : Timing := {}
    let duration := (pulse.attribute? "durationPerBeat").bind fun text =>
      Decimal.leadingCount? text.toList
    { beatsPerMinute := (positive? pulse "beatsPerMinute").getD standard.beatsPerMinute
      pulsesPerBeat := (positive? pulse "pulsesPerBeat").getD standard.pulsesPerBeat
      durationPerBeat := duration.getD standard.durationPerBeat
      swing := (positive? pulse "swing").getD standard.swing
      timeScale := standard.timeScale }

def ofNode (root : Node) (now : Instant) : Score :=
  let sequences := numberSequences 0 ((root.elementsNamed "sequence").mapIdx sequenceOf)
  let characters := (root.elementsNamed "character").mapIdx characterOf
  let locations := (root.elementsNamed "location").mapIdx locationOf
  let score := { Score.empty now with metadata := metadataOf root, timing := timingOf root }
  let score := sequences.foldl Score.addSequence score
  let score := characters.foldl Score.addCharacter score
  (locations.foldl Score.addLocation score).init

def ofDocument? (document : String) (now : Instant) : Option Score :=
  (Node.ofDocument? document).map fun root => ofNode root now

end Narrative.Script
