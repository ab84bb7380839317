import Narrative.Player.Basic

/-!
This module contains sessions of a player with its host: automatic playback, and playback on lines of
input. Both write the events of a player as they occur, and stop at a limit on the number of steps.
-/

namespace Narrative.Player

variable {ρ : Type} [RandomSource ρ]

def limitReached (limit : Option Nat) (p : Player ρ) : Bool :=
  match limit with
  | some limit => p.steps ≥ limit
  | none => false

def isOver (limit : Option Nat) (p : Player ρ) : Bool :=
  p.limitReached limit || p.isFinished

inductive Input where
  | advance
  | quit
deriving Repr, DecidableEq

def Input.ofLine (line : String) : Input :=
  if Text.sameName (Text.trimmed line) "q" then .quit else .advance

/--
Automatic playback from `now` on, for at most `turns` waits, with a clock that reads the instant waited
for. The result is the events written and the player in the end, if the session comes to an end.
-/
def playOut (limit : Option Nat) (turns : Nat) (now : Instant) (p : Player ρ) :
    Option (List Event × Player ρ) :=
  go turns now (p.play now).2
where
  go (turns : Nat) (now : Instant) (p : Player ρ) : Option (List Event × Player ρ) :=
    let (events, p) := p.drain
    if p.isOver limit then
      some (events, p.stop)
    else
      match p.score.nextDue?, turns with
      | none, _ => some (events, p.stop)
      | some _, 0 => none
      | some due, turns + 1 =>
        let now := now.max due
        match go turns now (p.runDue now).2 with
        | none => none
        | some (later, p) => some (events ++ later, p)

/--
What is left to wait for when the host has quit: the delayed steps, for at most `turns` waits, each
of them up to the next instant that something is due.
-/
def settle (turns : Nat) (now : Instant) (p : Player ρ) : Option (List Event × Player ρ) :=
  match p.score.nextDue?, turns with
  | none, _ => some ([], p)
  | some _, 0 => none
  | some due, turns + 1 =>
    let now := now.max due
    let (events, p) := (p.runDue now).2.drain
    match settle turns now p with
    | none => none
    | some (later, p) => some (events ++ later, p)

/--
Playback on lines of input that are all there at once. Each of them is answered at `now`, and no
task fires between one line and the next, as it would if the session had to wait for a line. What is
delayed waits until no line is left, the host quits, or the session is over.
-/
def converse (limit : Option Nat) (turns : Nat) (now : Instant) (lines : List String)
    (p : Player ρ) : Option (List Event × Player ρ) :=
  let (events, p) := p.drain
  let settled := (settle turns now p).map fun (later, p) => (events ++ later, p)
  if p.isOver limit then
    settled
  else
    match lines with
    | [] => settled
    | line :: lines =>
      match Input.ofLine line with
      | .quit => settled
      | .advance =>
        (converse limit turns now lines (p.request now).2).map fun (later, p) =>
          (events ++ later, p)

end Narrative.Player
