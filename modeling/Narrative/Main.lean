import Narrative.CommandLine.Config
import Narrative.Score.View
import Std.Time.DateTime.Timestamp

/-!
This module contains the program: it plays the script that its command line names, and writes every
event on a line of its own.
-/

namespace Narrative.Main

open CommandLine

def currentInstant : IO Instant := do
  let now ← Std.Time.Timestamp.now
  return .ofNanos 0 now.toNanosecondsSinceUnixEpoch.val

def emit (p : Player SeededSource) : IO (Player SeededSource) := do
  let (events, p) := p.drain
  let stdout ← IO.getStdout
  for event in events do
    stdout.putStrLn (event.toLine.render Decimal.pointed)
  stdout.flush
  return p

def awaitDue (p : Player SeededSource) (nanos : Nat) : IO (Player SeededSource) := do
  IO.sleep ((nanos + 999999) / 1000000).toUInt32
  return (p.runDue (← currentInstant)).2

partial def settle (p : Player SeededSource) : IO Unit := do
  match p.wait? (← currentInstant) with
  | none => return
  | some nanos => settle (← emit (← awaitDue p nanos))

partial def play (limit : Option Nat) (p : Player SeededSource) : IO Unit := do
  let p ← emit p
  if p.isOver limit then
    return
  match p.wait? (← currentInstant) with
  | none => return
  | some nanos => play limit (← awaitDue p nanos)

/--
Wait until a line has been read or a task is due. The result is the line, unless a task came first.
-/
partial def awaitLine (line : Task (Except IO.Error String)) (p : Player SeededSource) :
    IO (Option (Except IO.Error String)) := do
  if ← IO.hasFinished line then
    return some line.get
  match p.wait? (← currentInstant) with
  | some 0 => return none
  | _ =>
    IO.sleep 2
    awaitLine line p

partial def converse (limit : Option Nat) (pending : Option (Task (Except IO.Error String)))
    (p : Player SeededSource) : IO Unit := do
  let p ← emit p
  if p.isOver limit then
    settle p
  else
    let line ← match pending with
      | some line => pure line
      | none => IO.asTask (do (← IO.getStdin).getLine) .dedicated
    match ← awaitLine line p with
    | none => converse limit (some line) (p.runDue (← currentInstant)).2
    | some (.error error) => throw error
    | some (.ok "") => settle p
    | some (.ok text) =>
      match Player.Input.ofLine text with
      | .quit => settle p
      | .advance => converse limit none (p.request (← currentInstant)).2

def run (config : Config) : IO Unit := do
  let source ← IO.FS.readFile config.script
  let seed ← match config.seed with
    | some seed => pure seed
    | none => IO.rand 0 (Nat.pow 2 63)
  let now ← currentInstant
  let p := config.player source now (SeededSource.ofSeed seed)
  match config.mode with
  | .play => play config.maxSteps (p.play now).2
  | .interactive => converse config.maxSteps none p

end Narrative.Main

open Narrative in
def main (arguments : List String) : IO UInt32 := do
  let names := ["STEPWISE_FORMAT", "STEPWISE_TIME_SCALE", "STEPWISE_ALLOW_INPUT_DURING_DELAY",
    "STEPWISE_LOG_JSON"]
  let settings ← names.mapM fun name => do return (name, ← IO.getEnv name)
  let lookup (name : String) : Option String := (settings.lookup name).join
  match CommandLine.parse arguments lookup with
  | .error error =>
    IO.eprintln "usage: SCRIPT [OPTIONS]"
    return error.exitCode.toUInt32
  | .ok a =>
    match a.config (a.script.getD "") with
    | .error error =>
      IO.eprintln error.message
      return 1
    | .ok config =>
      try
        Main.run config
        return 0
      catch error =>
        IO.eprintln (toString error)
        return 1
