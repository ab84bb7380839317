import Narrative.Clock
import Narrative.Score.Basic

/-!
This module contains how steps are carried out: at once or when their delay is over, alone or as a
group, and with the steps of other sequences that they set going.
-/

namespace Narrative

namespace Score

def record (s : Score) (now : Instant) (sequenceId : String) (step : Step) : Score :=
  { s with
    characters := revealTarget s.characters step
    world := s.world.after s.locations step
    events := s.events.push ⟨s.eventCount + 1, now, sequenceId, step⟩
    eventCount := s.eventCount + 1 }

def postpone (s : Score) (now : Instant) (sequenceId : String) (step : Step) : Score :=
  let due := now.after (s.timing.delayMs step.instruction.delay)
  { s with
    timeline := s.timeline.schedule due (.dispatch step sequenceId)
    delayEnd := some (match s.delayEnd with
      | some stop => stop.max due
      | none => due) }

def select (s : Score) (index : Nat) (atDate : Option Instant) : Score :=
  let cue (sequence : Sequence) : Sequence :=
    (atDate.bind sequence.matchDate?).getD sequence
  { s with
    sequenceIndex := index
    current := some index
    sequences := s.sequences.modify index cue }

def resetSequence (s : Score) (index : Nat) : Score :=
  { s with sequences := s.sequences.modify index Sequence.reset }

end Score

structure Performance (ρ : Type) where
  score : Score
  source : ρ
deriving Inhabited

namespace Performance

variable {ρ : Type} [RandomSource ρ]

abbrev Firing (ρ : Type) :=
  (sequenceId : String) → Step → Performance ρ → Performance ρ

def read (clock : Clock ρ) (p : Performance ρ) : Instant × Performance ρ :=
  let (now, source) := clock.read p.source
  (now, { p with source })

def record (clock : Clock ρ) : Firing ρ :=
  fun sequenceId step p =>
    let (now, p) := p.read clock
    { p with score := p.score.record now sequenceId step }

def postpone (clock : Clock ρ) : Firing ρ :=
  fun sequenceId step p =>
    let (now, p) := p.read clock
    { p with score := p.score.postpone now sequenceId step }

def execute (clock : Clock ρ) (fire : Firing ρ) : Firing ρ :=
  fun sequenceId step p =>
    if step.isDelayed then p.postpone clock sequenceId step else fire sequenceId step p

def advance (clock : Clock ρ) (fire : Firing ρ) (index : Nat) (p : Performance ρ) :
    Option Step × Performance ρ :=
  match p.score.sequences[index]? with
  | none => (none, p)
  | some sequence =>
    match sequence.next? p.source with
    | none => (none, p)
    | some (step, after, source) =>
      let score := { p.score with sequences := p.score.sequences.set index after }
      (some step, execute clock fire sequence.id step { score, source })

def select (clock : Clock ρ) (fire : Firing ρ) (index : Nat) (atDate : Option Instant)
    (autoStart : Bool) (p : Performance ρ) : Option Step × Performance ρ :=
  let p := { p with score := p.score.select index atDate }
  if autoStart then p.advance clock fire index else (none, p)

def follow (clock : Clock ρ) (fire : Firing ρ) (step : Step) (p : Performance ρ) : Performance ρ :=
  match step.command, step.target with
  | .setSequence atDate autoStart, .sequence index _ =>
    (p.select clock fire index atDate autoStart).2
  | .sample, .sequence index _ => (p.advance clock fire index).2
  | .reset, .sequence index _ => { p with score := p.score.resetSequence index }
  | _, _ => p

/--
Carry out a step, a group by executing what is under it. Steps carry out one another at most `room`
deep, and a step that finds no room is dropped.
-/
def dispatch (clock : Clock ρ) : (room : Nat) → Firing ρ
  | 0, _, _, p => p
  | room + 1, sequenceId, step, p =>
    match step.command with
    | .group =>
      step.substeps.foldl
        (fun p substep => execute clock (dispatch clock room) sequenceId substep p) p
    | _ => follow clock (dispatch clock room) step (p.record clock sequenceId step)

def maxDepth : Nat := 33

def fire (clock : Clock ρ) : Firing ρ :=
  dispatch clock maxDepth

end Performance

end Narrative
