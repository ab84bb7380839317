import Narrative.Score.Cast
import Narrative.Step
import Narrative.Text.Blank

/-!
This module contains the state of the story's world, and what a step changes in it.
-/

namespace Narrative

structure Palette where
  back : String := "#ffffff"
  mid : String := "#888888"
  fore : String := "#000000"
deriving Repr, DecidableEq, Inhabited

structure World where
  location : Location := .nowhere
  temperature : Float := 24.0
  units : TemperatureUnits := .celsius
  weather : Weather := .clear
  date : Instant
  palette : Palette := {}
deriving Inhabited

namespace World

def after (w : World) (locations : List Location) (step : Step) : World :=
  match step.command, step.target with
  | .setLocation, .location index _ =>
    match locations[index]? with
    | some location => { w with location }
    | none => w
  | .setTemperature (some temperature) units, _ => { w with temperature, units }
  | .setWeather (some weather), _ => { w with weather }
  | .setDate (some date), _ => { w with date }
  | .setTime (some date), _ => { w with date }
  | .setBackColor, _ => { w with palette.back := Text.trimmed step.content }
  | .setMidColor, _ => { w with palette.mid := Text.trimmed step.content }
  | .setForeColor, _ => { w with palette.fore := Text.trimmed step.content }
  | _, _ => w

end World

def revealTarget (characters : List Character) (step : Step) : List Character :=
  match step.target with
  | .character index _ =>
    if step.command.revealsCharacter then characters.modify index Character.reveal else characters
  | _ => characters

end Narrative
