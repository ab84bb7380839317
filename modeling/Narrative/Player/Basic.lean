import Narrative.Score.Playback
import Narrative.Text.Quoted

/-!
This module contains players: a performance as its host sees it, with a count of the steps that were
written.
-/

namespace Narrative

structure Player (ρ : Type) where
  performance : Performance ρ
  steps : Nat := 0
  started : Bool := false
deriving Inhabited

namespace Player

variable {ρ : Type} [RandomSource ρ]

def score (p : Player ρ) : Score :=
  p.performance.score

def request (clock : Clock ρ) (p : Player ρ) : Bool × Player ρ :=
  let (step, performance) := p.performance.request clock
  (step.isSome, { p with performance, started := true })

def play (clock : Clock ρ) (p : Player ρ) : Bool × Player ρ :=
  let (step, performance) := p.performance.play clock
  (step.isSome, { p with performance, started := true })

def stop (p : Player ρ) : Player ρ :=
  { p with performance.score := p.score.stop }

def runDue (clock : Clock ρ) (p : Player ρ) : Nat × Player ρ :=
  let (fired, performance) := p.performance.runDue clock
  (fired, { p with performance })

def wait? (now : Instant) (p : Player ρ) : Option Nat :=
  p.score.nextDue?.map (Instant.wait now)

def drain (p : Player ρ) : List Event × Player ρ :=
  let (events, score) := p.score.takeEvents
  (events, { p with performance.score := score, steps := p.steps + events.length })

def isFinished (p : Player ρ) : Bool :=
  let exhausted := match p.score.currentSequence? with
    | some sequence => sequence.exhausted
    | none => true
  exhausted && !p.score.timeline.tasks.any (fun task => task.action.isDispatch)
    && (p.started || p.score.sequences.isEmpty)

def describe (p : Player ρ) : String :=
  "PlayerState \x7b score: " ++ Text.quoted p.score.metadata.title ++ ", steps: "
    ++ toString p.steps ++ ", .. \x7d"

end Player

end Narrative
