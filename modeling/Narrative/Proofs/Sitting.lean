import Narrative.Player.Basic
import Narrative.Proofs.Frame
import Narrative.Proofs.Invariant

/-!
This module contains sittings of a player: what its host may do with it action by action, and the
events that it gave. Nothing is put in the queue in a sitting, so the sequence that is played is the
one at the top level.
-/

namespace Narrative

inductive Player.Action (ρ : Type) where
  | request (clock : Clock ρ)
  | play (clock : Clock ρ)
  | stop
  | runDue (clock : Clock ρ)
  | drain

/--
A player and the events that were drained from it.
-/
structure Sitting (ρ : Type) where
  player : Player ρ
  drained : List Event := []

variable {ρ : Type} [RandomSource ρ]

def Player.perform (action : Action ρ) (p : Player ρ) : Player ρ :=
  match action with
  | .request clock => (p.request clock).2
  | .play clock => (p.play clock).2
  | .stop => p.stop
  | .runDue clock => (p.runDue clock).2
  | .drain => p.drain.2

namespace Sitting

def score (s : Sitting ρ) : Score :=
  s.player.score

def log (s : Sitting ρ) : List Event :=
  s.drained ++ s.score.events.toList

def perform (action : Player.Action ρ) (s : Sitting ρ) : Sitting ρ where
  player := s.player.perform action
  drained :=
    match action with
    | .drain => s.drained ++ s.player.drain.1
    | _ => s.drained

def run (actions : List (Player.Action ρ)) (s : Sitting ρ) : Sitting ρ :=
  actions.foldl (fun s action => s.perform action) s

def opening (now : Instant) (parts : List Part) (source : ρ) : Sitting ρ where
  player := { performance := { score := Score.assembled now parts, source } }

end Sitting

namespace Performance.Steady

variable {Q : Step → Prop} {P : Performance ρ → Prop}

theorem player (h : Steady Q P) (action : Player.Action ρ) {p : Player ρ}
    (hclear : P p.performance → P { p.performance with score := p.score.clearEvents })
    (hp : P p.performance)
    : P (p.perform action).performance := by
  cases action with
  | request clock => exact h.request clock hp
  | play clock => exact h.play clock hp
  | stop => exact h.stop hp
  | runDue clock => exact h.runDue clock hp
  | drain => exact hclear hp

theorem sitting (h : Steady Q P)
    (hclear : ∀ {p : Performance ρ}, P p → P { p with score := p.score.clearEvents })
    (actions : List (Player.Action ρ)) {s : Sitting ρ} (hs : P s.player.performance)
    : P (s.run actions).player.performance := by
  induction actions generalizing s with
  | nil => exact hs
  | cons action actions ih => exact ih (h.player action hclear hs)

end Performance.Steady

namespace Score

/--
The sequence at the top level is the one that is played.
-/
structure Steered (s : Score) : Prop where
  queue : s.queue = []
  current : s.current = some s.sequenceIndex

/--
Nothing has been played, and nothing waits.
-/
structure Untouched (s : Score) : Prop where
  queue : s.queue = []
  current : s.current = none
  tasks : s.timeline.tasks = []
  playTask : s.playTask = none
  playing : s.playing = false
  delayEnd : s.delayEnd = none

theorem assembled_untouched (now : Instant) (parts : List Part)
    : (assembled now parts).Untouched := by
  obtain ⟨_, _, _, _, _, _, _, h⟩ := assembled_eq now parts
  rw [h]
  exact ⟨rfl, rfl, rfl, rfl, rfl, rfl⟩

namespace Steered

variable {s : Score}

theorem choose (h : s.Steered) : s.choose = s := by
  rw [choose_of_queue_eq_nil h.queue]
  split
  . rfl
  . next index htop =>
    have hcurrent := h.current
    rw [(topLevel?_eq_some_iff.mp htop).1] at hcurrent
    rw [← hcurrent, ite_self]

theorem steer (h : s.Steered) (step : Step) : (s.steer step).Steered := by
  unfold Score.steer
  split
  . exact ⟨h.queue, rfl⟩
  . exact ⟨h.queue, h.current⟩
  . exact h

end Steered

end Score

namespace Performance

theorem steered_steady : Steady (fun _ => True) (fun p : Performance ρ => p.score.Steered) where
  kept clock := by
    refine ⟨fun _ _ => trivial, fun h _ _ => ⟨trivial, h.queue, h.current⟩,
      fun _ _ h => ⟨h.queue, h.current⟩, ?_⟩
    intro p step sequenceId _ _ h
    have hrecorded : (p.record clock sequenceId step).score.Steered := ⟨h.queue, h.current⟩
    exact hrecorded.steer step
  read _ h := h
  choose h := by
    dsimp only at h ⊢
    rw [h.choose]
    exact h
  trigger _ h := ⟨h.queue, h.current⟩
  setPlaying h := ⟨h.queue, h.current⟩
  scheduleTick {p} now h _ := by
    obtain ⟨_, _, hschedule⟩ := p.score.scheduleTick_eq now
    rw [hschedule]
    exact ⟨h.queue, h.current⟩
  stop {p} h := by
    obtain ⟨_, _, hstop⟩ := p.score.stop_eq
    rw [hstop]
    exact ⟨h.queue, h.current⟩
  pop h _ := ⟨fun _ => trivial, h.queue, h.current⟩
  spend h := ⟨h.queue, h.current⟩

end Performance

end Narrative
