import Narrative.CommandLine.Parser
import Narrative.Decimal.Notation
import Narrative.Player.Session
import Narrative.Script.Basic

/-!
This module contains the configuration of a session, which is what the arguments of the command line
come to when they make sense together.
-/

namespace Narrative.CommandLine

inductive Mode where
  | interactive
  | play
deriving Repr, DecidableEq

def Mode.name : Mode → String
  | interactive => "interactive"
  | play => "play"

inductive ConfigError where
  | timeScale (scale : Float)
  | emptyDelimiter

def ConfigError.message : ConfigError → String
  | timeScale scale =>
    "configuration error: time scale must be a positive number, got " ++ Decimal.positional scale
  | emptyDelimiter => "configuration error: delimiter must not be empty"

structure Config where
  script : String
  format : ScriptFormat
  delimiter : String
  options : PlaybackOptions
  timeScale : Float
  mode : Mode
  maxSteps : Option Nat
  seed : Option Nat
  logJson : Bool

def Arguments.config (a : Arguments) (path : String) : Except ConfigError Config :=
  let timeScale := a.timeScale.getD 1.0
  if !timeScale.isFinite || timeScale ≤ 0.0 then
    .error (.timeScale timeScale)
  else if a.delimiter == some "" then
    .error .emptyDelimiter
  else
    .ok
      { script := path
        format := a.format.getD (ScriptFormat.ofPath path)
        delimiter := a.delimiter.getD "\n"
        options := ⟨a.allowInputDuringDelay⟩
        timeScale
        mode := if a.play then .play else .interactive
        maxSteps := a.maxSteps
        seed := a.seed
        logJson := a.logJson }

namespace Config

def player {ρ : Type} (c : Config) (source : String) (now : Instant) (chance : ρ) : Player ρ :=
  let score := Script.score (some source) c.format c.delimiter now
  let score := { score with options := c.options, timing.timeScale := c.timeScale }
  { performance := { score, source := chance } }

end Config

end Narrative.CommandLine
