import Narrative.Score.Directory
import Narrative.Score.Playback
import Narrative.Score.Setting

/-!
This module contains runs of a performance: how a score is assembled, what a host asks of it turn by
turn, and what the host has seen of it so far.
-/

namespace Narrative

inductive Part where
  | sequence (sequence : Sequence)
  | character (character : Character)
  | location (location : Location)
  | setting (setting : Setting)

namespace Score

def add (s : Score) (part : Part) : Score :=
  match part with
  | .sequence sequence => s.addSequence sequence
  | .character character => s.addCharacter character
  | .location location => s.addLocation location
  | .setting setting => s.set setting

def assembled (now : Instant) (parts : List Part) : Score :=
  (parts.foldl add (empty now)).init

end Score

inductive Operation where
  | next
  | request
  | play
  | stop
  | runDue
  | playSequence (id : String)
  | setSequence (id : String) (atDate : Option Instant) (autoStart : Bool)
  | reset
  | takeEvents
  | clearEvents
deriving DecidableEq

def Operation.drains : Operation → Bool
  | takeEvents | clearEvents => true
  | _ => false

/--
An operation that answers with a step or an error.
-/
inductive Call where
  | next
  | playSequence (id : String)
  | setSequence (id : String) (atDate : Option Instant) (autoStart : Bool)

inductive Turn (ρ : Type) where
  | act (clock : Clock ρ) (operation : Operation)
  | add (part : Part)
  | init

variable {ρ : Type} [RandomSource ρ]

namespace Performance

def perform (clock : Clock ρ) (operation : Operation) (p : Performance ρ) : Performance ρ :=
  match operation with
  | .next => (p.next clock).2
  | .request => (p.request clock).2
  | .play => (p.play clock).2
  | .stop => { p with score := p.score.stop }
  | .runDue => (p.runDue clock).2
  | .playSequence id =>
    match p.playSequence clock id with
    | .ok (_, p) => p
    | .error _ => p
  | .setSequence id atDate autoStart =>
    match p.setSequence clock id atDate autoStart with
    | .ok (_, p) => p
    | .error _ => p
  | .reset => { p with score := p.score.reset }
  | .takeEvents => { p with score := p.score.takeEvents.2 }
  | .clearEvents => { p with score := p.score.clearEvents }

def firedBy (clock : Clock ρ) (operation : Operation) (p : Performance ρ) : List Timeline.Task :=
  match operation with
  | .runDue => (p.fireDue clock).1
  | _ => []

theorem perform_playSequence (clock : Clock ρ) (id : String) (p : Performance ρ)
    : p.perform clock (.playSequence id)
        =
      match p.score.findSequence id with
      | .error _ => p
      | .ok index =>
        (advance clock (fire clock) index { p with score := p.score.enqueue index }).2 := by
  dsimp only [perform, playSequence]
  cases p.score.findSequence id with
  | error => rfl
  | ok => rfl

theorem perform_setSequence (clock : Clock ρ) (id : String) (atDate : Option Instant)
    (autoStart : Bool) (p : Performance ρ)
    : p.perform clock (.setSequence id atDate autoStart)
        =
      match p.score.findSequence id with
      | .error _ => p
      | .ok index => (p.select clock (fire clock) index atDate autoStart).2 := by
  dsimp only [perform, setSequence]
  cases p.score.findSequence id with
  | error => rfl
  | ok => rfl

theorem perform_of_drains (clock : Clock ρ) {operation : Operation} (h : operation.drains = true)
    (p : Performance ρ)
    : p.perform clock operation = { p with score := p.score.clearEvents } := by
  cases operation with
  | takeEvents => rfl
  | clearEvents => rfl
  | _ => simp [Operation.drains] at h

def answer (clock : Clock ρ) (call : Call) (p : Performance ρ) :
    Except ScoreError (Option Step) × Performance ρ :=
  match call with
  | .next =>
    let (step, p) := p.next clock
    (.ok step, p)
  | .playSequence id =>
    match p.playSequence clock id with
    | .error error => (.error error, p)
    | .ok (step, p) => (.ok step, p)
  | .setSequence id atDate autoStart =>
    match p.setSequence clock id atDate autoStart with
    | .error error => (.error error, p)
    | .ok (step, p) => (.ok step, p)

theorem answer_playSequence (clock : Clock ρ) {id : String} {index : Nat} {p : Performance ρ}
    (h : p.score.findSequence id = .ok index)
    : p.answer clock (.playSequence id)
        =
      let called := advance clock (fire clock) index { p with score := p.score.enqueue index }
      (.ok called.1, called.2) := by
  unfold answer playSequence
  dsimp only
  rw [h]

def answers (calls : List (Clock ρ × Call)) (p : Performance ρ) :
    List (Except ScoreError (Option Step)) × Performance ρ :=
  match calls with
  | [] => ([], p)
  | (clock, call) :: calls =>
    let (first, p) := p.answer clock call
    let (rest, p) := answers calls p
    (first :: rest, p)

end Performance

/--
A performance and what its host has seen: the events that left the score, the tasks that were
scheduled, and the tasks that were fired, each with the reading of the clock that it was due at.
-/
structure Chronicle (ρ : Type) where
  performance : Performance ρ
  drained : List Event := []
  scheduled : List Timeline.Task := []
  fired : List (Instant × Timeline.Task) := []

namespace Chronicle

def score (c : Chronicle ρ) : Score :=
  c.performance.score

def log (c : Chronicle ρ) : List Event :=
  c.drained ++ c.score.events.toList

def act (clock : Clock ρ) (operation : Operation) (c : Chronicle ρ) : Chronicle ρ :=
  let after := c.performance.perform clock operation
  let isNew (task : Timeline.Task) : Bool := c.score.timeline.nextId ≤ task.id
  let now := (c.performance.read clock).1
  { performance := after
    drained := if operation.drains then c.log else c.drained
    scheduled := c.scheduled ++ after.score.timeline.tasks.filter isNew
    fired := c.fired ++ (c.performance.firedBy clock operation).map fun task => (now, task) }

def actAll (acts : List (Clock ρ × Operation)) (c : Chronicle ρ) : Chronicle ρ :=
  acts.foldl (fun c (clock, operation) => c.act clock operation) c

def take (c : Chronicle ρ) (turn : Turn ρ) : Chronicle ρ :=
  match turn with
  | .act clock operation => c.act clock operation
  | .add part => { c with performance.score := c.score.add part }
  | .init => { c with performance.score := c.score.init }

def run (turns : List (Turn ρ)) (c : Chronicle ρ) : Chronicle ρ :=
  turns.foldl take c

/--
What every allowed turn keeps is kept in a run of such turns.
-/
theorem run_keeps {P : Chronicle ρ → Prop} {Allowed : Turn ρ → Prop}
    (htake : ∀ {turn : Turn ρ} {c : Chronicle ρ}, Allowed turn → P c → P (c.take turn))
    {turns : List (Turn ρ)} (hturns : ∀ turn ∈ turns, Allowed turn) {c : Chronicle ρ} (hc : P c)
    : P (c.run turns) := by
  apply List.foldlRecOn
  . exact hc
  . intro c hc turn hmem
    exact htake (hturns turn hmem) hc

end Chronicle

def Chronicle.opening (now : Instant) (parts : List Part) (source : ρ) : Chronicle ρ :=
  { performance := { score := Score.assembled now parts, source } }

end Narrative
