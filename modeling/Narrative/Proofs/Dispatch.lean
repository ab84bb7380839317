import Narrative.Proofs.Advance
import Narrative.Score.Playback

/-!
This module contains what it takes for a property of performances to survive the carrying out of
steps, however they set one another going.
-/

namespace Narrative

namespace Step

def isGroup (step : Step) : Bool :=
  match step.command with
  | .group => true
  | _ => false

def starts? (step : Step) : Option Nat :=
  match step.command, step.target with
  | .setSequence _ true, .sequence index _ => some index
  | .sample, .sequence index _ => some index
  | _, _ => none

end Step

def Score.steer (s : Score) (step : Step) : Score :=
  match step.command, step.target with
  | .setSequence atDate _, .sequence index _ => s.select index atDate
  | .reset, .sequence index _ => s.resetSequence index
  | _, _ => s

theorem Sequence.mem_steps_of_next? {ρ : Type} [RandomSource ρ] {s after : Sequence}
    {source left : ρ} {step : Step} (h : s.next? source = some (step, after, left))
    : step ∈ s.steps := by
  obtain ⟨_, ⟨_, _, _, hget, _⟩ | ⟨_, hordered, _⟩⟩ := next?_cases h
  . exact List.mem_of_getElem? hget
  . obtain ⟨start, hstart, hget, _⟩ := nextOrdered?_cases hordered
    have hsteps : start.steps = s.steps := by
      rw [hstart]
      split <;> rfl
    rw [← hsteps]
    exact List.mem_of_getElem? hget

namespace Performance

variable {ρ : Type} [RandomSource ρ]

def carryOut (clock : Clock ρ) : Firing ρ :=
  fun sequenceId step p =>
    let p := p.record clock sequenceId step
    { p with score := p.score.steer step }

theorem follow_eq (clock : Clock ρ) (fire : Firing ρ) (step : Step) (p : Performance ρ)
    : follow clock fire step p
        =
      match step.starts? with
      | none => { p with score := p.score.steer step }
      | some index => (advance clock fire index { p with score := p.score.steer step }).2 := by
  unfold follow select Score.steer Step.starts?
  generalize step.command = command
  generalize step.target = target
  cases command with
  | setSequence atDate autoStart => cases autoStart <;> cases target <;> rfl
  | _ => cases target <;> rfl

theorem dispatch_group (clock : Clock ρ) (room : Nat) (sequenceId : String) (step : Step)
    (p : Performance ρ) (h : step.isGroup = true)
    : dispatch clock (room + 1) sequenceId step p
        =
      step.substeps.foldl
        (fun p substep => execute clock (dispatch clock room) sequenceId substep p) p := by
  unfold Step.isGroup at h
  unfold dispatch
  split
  . rfl
  . simp_all

theorem dispatch_single (clock : Clock ρ) (room : Nat) (sequenceId : String) (step : Step)
    (p : Performance ρ) (h : step.isGroup = false)
    : dispatch clock (room + 1) sequenceId step p
        =
      match step.starts? with
      | none => carryOut clock sequenceId step p
      | some index =>
        (advance clock (dispatch clock room) index (carryOut clock sequenceId step p)).2 := by
  unfold Step.isGroup at h
  unfold dispatch
  split
  . simp_all
  . rw [follow_eq]
    rfl

/--
`P` survives whatever the carrying out of a step does to a performance, as long as `Q` holds of the
steps that are carried out. The steps which sequences give and those under a step are such steps.
-/
structure Kept (clock : Clock ρ) (Q : Step → Prop) (P : Performance ρ → Prop) : Prop where
  substep {step substep : Step} : Q step → substep ∈ step.substeps → Q substep
  draw {p : Performance ρ} {index : Nat} {sequence after : Sequence} {step : Step} {source : ρ} :
    P p → p.score.sequences[index]? = some sequence →
      sequence.next? p.source = some (step, after, source) →
      Q step ∧ P ⟨{ p.score with sequences := p.score.sequences.set index after }, source⟩
  postpone {p : Performance ρ} {step : Step} (sequenceId : String) :
    Q step → P p → P (p.postpone clock sequenceId step)
  carryOut {p : Performance ρ} {step : Step} (sequenceId : String) :
    Q step → step.isGroup = false → P p → P (p.carryOut clock sequenceId step)

namespace Kept

variable {clock : Clock ρ} {Q : Step → Prop} {P : Performance ρ → Prop}

theorem execute (h : Kept clock Q P) {fire : Firing ρ} {sequenceId : String} {step : Step}
    (hfire : ∀ {p : Performance ρ}, P p → P (fire sequenceId step p)) (hstep : Q step)
    {p : Performance ρ} (hp : P p)
    : P (execute clock fire sequenceId step p) := by
  unfold Performance.execute
  split
  . apply h.postpone sequenceId hstep hp
  . apply hfire hp

theorem advance (h : Kept clock Q P) {fire : Firing ρ}
    (hfire : ∀ (sequenceId : String) {step : Step} {p : Performance ρ},
      Q step → P p → P (fire sequenceId step p))
    (index : Nat) {p : Performance ρ} (hp : P p)
    : P (p.advance clock fire index).2 := by
  unfold Performance.advance
  split
  . exact hp
  . next hget =>
    split
    . exact hp
    . next hnext =>
      have ⟨hstep, hp⟩ := h.draw hp hget hnext
      exact h.execute (hfire _ hstep) hstep hp

theorem dispatch (h : Kept clock Q P) (room : Nat)
    : ∀ (sequenceId : String) {step : Step} {p : Performance ρ},
        Q step → P p → P (dispatch clock room sequenceId step p) := by
  induction room with
  | zero =>
    intro sequenceId step p _ hp
    exact hp
  | succ room ih =>
    intro sequenceId step p hstep hp
    cases hgroup : step.isGroup with
    | true =>
      rw [dispatch_group _ _ _ _ _ hgroup]
      apply List.foldlRecOn
      . exact hp
      . intro p hp substep hmem
        have hsub := h.substep hstep hmem
        exact h.execute (ih _ hsub) hsub hp
    | false =>
      rw [dispatch_single _ _ _ _ _ hgroup]
      have hcarried := h.carryOut sequenceId hstep hgroup hp
      split
      . exact hcarried
      . exact h.advance ih _ hcarried

theorem fire (h : Kept clock Q P) (sequenceId : String) {step : Step} {p : Performance ρ}
    (hstep : Q step) (hp : P p)
    : P (fire clock sequenceId step p) := by
  apply h.dispatch maxDepth sequenceId hstep hp

theorem start (h : Kept clock Q P) (index : Nat) {p : Performance ρ} (hp : P p)
    : P (p.advance clock (Performance.fire clock) index).2 := by
  apply h.advance
  . intro sequenceId step p hstep hp
    exact h.fire sequenceId hstep hp
  . exact hp

end Kept

end Performance

end Narrative
