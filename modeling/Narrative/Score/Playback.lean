import Narrative.Score.Dispatch

/-!
This module contains the playback of scores: what happens on input, in automatic playback, when a
sequence is called for, and when tasks are due.
-/

namespace Narrative

namespace Score

def topLevel? (s : Score) : Option Nat :=
  if s.sequenceIndex < s.sequences.length then some s.sequenceIndex else none

def isCompleted (s : Score) (index : Nat) : Bool :=
  (s.sequences[index]?.map (·.completed)).getD false

def isExhausted (s : Score) (index : Nat) : Bool :=
  (s.sequences[index]?.map (·.exhausted)).getD false

/--
The score with the sequence chosen that is to be advanced: the first in the queue, which leaves the
queue instead if it is completed, and without a queue the one at the top level. If that one is
exhausted, the choice stays as it was.
-/
def choose (s : Score) : Score :=
  let queue := match s.queue with
    | [] => []
    | top :: rest => if s.isCompleted top then rest else top :: rest
  match queue.head? <|> s.topLevel? with
  | none => { s with queue }
  | some index => { s with queue, current := if s.isExhausted index then s.current else some index }

def enqueue (s : Score) (index : Nat) : Score :=
  { s with current := some index, queue := index :: s.queue }

def cancelTick (s : Score) : Score :=
  match s.playTask with
  | none => s
  | some id => { s with playTask := none, timeline := (s.timeline.cancel id).2 }

def scheduleTick (s : Score) (now : Instant) : Score :=
  let s := s.cancelTick
  { s with
    playTask := some s.timeline.nextId
    timeline := s.timeline.schedule (now.after s.timing.tickMs) .tick }

def stop (s : Score) : Score :=
  { s with playing := false }.cancelTick

end Score

namespace Performance

variable {ρ : Type} [RandomSource ρ]

def scheduleTick (clock : Clock ρ) (p : Performance ρ) : Performance ρ :=
  let (now, p) := p.read clock
  { p with score := p.score.scheduleTick now }

def advanceCurrent (clock : Clock ρ) (p : Performance ρ) : Option Step × Performance ρ :=
  match p.score.current with
  | some index =>
    if p.score.isExhausted index then (none, p) else p.advance clock (fire clock) index
  | none => (none, p)

def next (clock : Clock ρ) (p : Performance ρ) : Option Step × Performance ρ :=
  let (step, p) := advanceCurrent clock { p with score := p.score.choose }
  (step, if p.score.playing then p.scheduleTick clock else p)

def request (clock : Clock ρ) (p : Performance ρ) : Option Step × Performance ρ :=
  let (now, p) := p.read clock
  -- input does not count while delayed steps are to come
  if !p.score.options.allowInputDuringDelay && p.score.isBusy now then
    (none, p)
  else
    next clock { p with score := { p.score with triggerTime := some now } }

def play (clock : Clock ρ) (p : Performance ρ) : Option Step × Performance ρ :=
  next clock { p with score := { p.score with playing := true } }

def setSequence (clock : Clock ρ) (id : String) (atDate : Option Instant) (autoStart : Bool)
    (p : Performance ρ) : Except ScoreError (Option Step × Performance ρ) :=
  match p.score.findSequence id with
  | .error error => .error error
  | .ok index => .ok (p.select clock (fire clock) index atDate autoStart)

def playSequence (clock : Clock ρ) (id : String) (p : Performance ρ) :
    Except ScoreError (Option Step × Performance ρ) :=
  match p.score.findSequence id with
  | .error error => .error error
  | .ok index =>
    .ok (advance clock (fire clock) index { p with score := p.score.enqueue index })

def fireTask (clock : Clock ρ) (task : Timeline.Task) (p : Performance ρ) : Performance ρ :=
  match task.action with
  | .dispatch step sequenceId => fire clock sequenceId step p
  | .tick =>
    let p := if p.score.playTask = some task.id then
        { p with score := { p.score with playTask := none } }
      else
        p
    if p.score.playing then (next clock p).2 else p

def fireDueBefore (clock : Clock ρ) (now : Instant) (mark : Nat) :
    (limit : Nat) → Performance ρ → List Timeline.Task × Performance ρ
  | 0, p => ([], p)
  | limit + 1, p =>
    match p.score.timeline.popDue? now mark with
    | none => ([], p)
    | some (task, timeline) =>
      let (tasks, p) := fireDueBefore clock now mark limit
        (fireTask clock task { p with score := { p.score with timeline } })
      (task :: tasks, p)

def fireDue (clock : Clock ρ) (p : Performance ρ) : List Timeline.Task × Performance ρ :=
  let (now, p) := p.read clock
  -- what these tasks schedule waits for the next time, so no more than the tasks there can fire
  fireDueBefore clock now p.score.timeline.watermark p.score.timeline.size p

def runDue (clock : Clock ρ) (p : Performance ρ) : Nat × Performance ρ :=
  let (tasks, p) := p.fireDue clock
  (tasks.length, p)

end Performance

end Narrative
