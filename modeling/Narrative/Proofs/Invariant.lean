import Narrative.Proofs.Dispatch
import Narrative.Proofs.Run

/-!
This module contains what it takes for a property of performances to survive every operation of a
host, and so to hold throughout a run.
-/

namespace Narrative

namespace Performance

variable {ρ : Type} [RandomSource ρ]

/--
`P` survives every single change that playback is made of, as long as `Q` holds of the steps that are
carried out.
-/
structure Steady (Q : Step → Prop) (P : Performance ρ → Prop) : Prop where
  kept (clock : Clock ρ) : Kept clock Q P
  read {p : Performance ρ} (clock : Clock ρ) : P p → P (p.read clock).2
  choose {p : Performance ρ} : P p → P { p with score := p.score.choose }
  trigger {p : Performance ρ} (now : Instant) :
    P p → P { p with score := { p.score with triggerTime := some now } }
  setPlaying {p : Performance ρ} : P p → P { p with score := { p.score with playing := true } }
  scheduleTick {p : Performance ρ} (now : Instant) :
    P p → p.score.playing = true → P { p with score := p.score.scheduleTick now }
  stop {p : Performance ρ} : P p → P { p with score := p.score.stop }
  pop {p : Performance ρ} {now : Instant} {mark : Nat} {task : Timeline.Task}
      {timeline : Timeline} :
    P p → p.score.timeline.popDue? now mark = some (task, timeline) →
      (∀ {step : Step} {sequenceId : String}, task.action = .dispatch step sequenceId → Q step)
        ∧ P { p with score := { p.score with timeline } }
  spend {p : Performance ρ} : P p → P { p with score := { p.score with playTask := none } }

/--
`P` survives as well that a host calls for a sequence.
-/
structure Guided (Q : Step → Prop) (P : Performance ρ → Prop) : Prop extends Steady Q P where
  selectAt {p : Performance ρ} {id : String} {index : Nat} (atDate : Option Instant) :
    P p → p.score.findSequence id = .ok index → P { p with score := p.score.select index atDate }
  enqueue {p : Performance ρ} {id : String} {index : Nat} :
    P p → p.score.findSequence id = .ok index → P { p with score := p.score.enqueue index }

/--
`P` survives as well what a host changes besides.
-/
structure Stable (Q : Step → Prop) (P : Performance ρ → Prop) : Prop extends Guided Q P where
  reset {p : Performance ρ} : P p → P { p with score := p.score.reset }

variable {Q : Step → Prop} {P : Performance ρ → Prop}

namespace Steady

theorem advanceCurrent (h : Steady Q P) (clock : Clock ρ) {p : Performance ρ} (hp : P p)
    : P (p.advanceCurrent clock).2 := by
  unfold Performance.advanceCurrent
  split
  . split
    . exact hp
    . exact (h.kept clock).start _ hp
  . exact hp

theorem next_chosen (h : Steady Q P) (clock : Clock ρ) {p : Performance ρ}
    (hp : P { p with score := p.score.choose })
    : P (p.next clock).2 := by
  unfold Performance.next
  dsimp
  have := h.advanceCurrent clock hp
  split
  . next hplaying => exact h.scheduleTick _ (h.read clock this) hplaying
  . exact this

theorem next (h : Steady Q P) (clock : Clock ρ) {p : Performance ρ} (hp : P p)
    : P (p.next clock).2 := by
  apply h.next_chosen clock (h.choose hp)

theorem request (h : Steady Q P) (clock : Clock ρ) {p : Performance ρ} (hp : P p)
    : P (p.request clock).2 := by
  unfold Performance.request
  dsimp
  have hread := h.read clock hp
  split
  . exact hread
  . apply h.next
    apply h.trigger _ hread

theorem play (h : Steady Q P) (clock : Clock ρ) {p : Performance ρ} (hp : P p)
    : P (p.play clock).2 := by
  unfold Performance.play
  apply h.next
  apply h.setPlaying hp

theorem fireTask (h : Steady Q P) (clock : Clock ρ) (task : Timeline.Task) {p : Performance ρ}
    (htask : ∀ {step : Step} {sequenceId : String},
      task.action = .dispatch step sequenceId → Q step)
    (hp : P p)
    : P (p.fireTask clock task) := by
  unfold Performance.fireTask
  split
  . next haction => exact (h.kept clock).fire _ (htask haction) hp
  . dsimp
    have hspent := h.spend hp
    split
    . split
      . exact h.next clock hspent
      . exact hspent
    . split
      . exact h.next clock hp
      . exact hp

theorem fireDueBefore (h : Steady Q P) (clock : Clock ρ) (now : Instant) (mark limit : Nat)
    {p : Performance ρ} (hp : P p)
    : P (p.fireDueBefore clock now mark limit).2 := by
  induction limit generalizing p with
  | zero => exact hp
  | succ limit ih =>
    unfold Performance.fireDueBefore
    split
    . exact hp
    . next hpop =>
      have ⟨htask, hp⟩ := h.pop hp hpop
      apply ih
      exact h.fireTask clock _ htask hp

theorem runDue (h : Steady Q P) (clock : Clock ρ) {p : Performance ρ} (hp : P p)
    : P (p.runDue clock).2 := by
  unfold Performance.runDue Performance.fireDue
  apply h.fireDueBefore
  apply h.read clock hp

end Steady

namespace Guided

theorem select (h : Guided Q P) (clock : Clock ρ) {id : String} {index : Nat}
    (atDate : Option Instant) (autoStart : Bool) {p : Performance ρ} (hp : P p)
    (hfind : p.score.findSequence id = .ok index)
    : P (p.select clock (Performance.fire clock) index atDate autoStart).2 := by
  unfold Performance.select
  have hselected := h.selectAt atDate hp hfind
  dsimp
  split
  . exact (h.kept clock).start _ hselected
  . exact hselected

theorem perform (h : Guided Q P) (clock : Clock ρ) (operation : Operation) {p : Performance ρ}
    (hreset : operation = .reset → P { p with score := p.score.reset })
    (hclear : operation.drains = true → P { p with score := p.score.clearEvents }) (hp : P p)
    : P (p.perform clock operation) := by
  cases operation with
  | next => exact h.next clock hp
  | request => exact h.request clock hp
  | play => exact h.play clock hp
  | stop => exact h.stop hp
  | runDue => exact h.runDue clock hp
  | playSequence id =>
    rw [perform_playSequence]
    split
    . exact hp
    . next hfind => exact (h.kept clock).start _ (h.enqueue hp hfind)
  | setSequence id atDate autoStart =>
    rw [perform_setSequence]
    split
    . exact hp
    . next hfind => exact h.select clock atDate autoStart hp hfind
  | reset => exact hreset rfl
  | takeEvents => exact hclear rfl
  | clearEvents => exact hclear rfl

end Guided

theorem Stable.perform (h : Stable Q P) (clock : Clock ρ) (operation : Operation)
    {p : Performance ρ}
    (hclear : operation.drains = true → P { p with score := p.score.clearEvents }) (hp : P p)
    : P (p.perform clock operation) := by
  apply h.toGuided.perform clock operation (fun _ => h.reset hp) hclear hp

end Performance

end Narrative
