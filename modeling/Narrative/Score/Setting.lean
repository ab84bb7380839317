import Narrative.Score.Basic

/-!
This module contains what a host may set in a score apart from its playback.
-/

namespace Narrative

inductive Layer where
  | back
  | mid
  | fore
deriving Repr, DecidableEq

def Palette.paint (p : Palette) (layer : Layer) (color : String) : Palette :=
  match layer with
  | .back => { p with back := color }
  | .mid => { p with mid := color }
  | .fore => { p with fore := color }

inductive Setting where
  | metadata (metadata : Metadata)
  | timing (timing : Timing)
  | timeScale (value : Float)
  | options (options : PlaybackOptions)
  | location (id : String)
  | temperature (value : Float) (units : TemperatureUnits)
  | weather (weather : Weather)
  | date (date : Instant)
  | color (layer : Layer) (color : String)

namespace Score

def set (s : Score) (setting : Setting) : Score :=
  match setting with
  | .metadata metadata => { s with metadata }
  | .timing timing => { s with timing }
  | .timeScale value => { s with timing.timeScale := value }
  | .options options => { s with options }
  | .location id => (s.setLocation id).toOption.getD s
  | .temperature temperature units => { s with world := { s.world with temperature, units } }
  | .weather weather => { s with world.weather := weather }
  | .date date => { s with world.date := date }
  | .color layer color => { s with world.palette := s.world.palette.paint layer color }

end Score

end Narrative
