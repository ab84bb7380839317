import Narrative.Proofs.Dispatch

/-!
This module contains what it takes for a relation between two performances to survive that both
carry out the same step, each with its own clock and source.
-/

namespace Narrative.Performance

variable {ρ σ : Type} [RandomSource ρ] [RandomSource σ]

/--
The step that the sequence at `index` gives, with the id of the sequence and the performance from
there.
-/
def draw? (index : Nat) (p : Performance ρ) : Option (String × Step × Performance ρ) :=
  p.score.sequences[index]?.bind fun sequence =>
    (sequence.next? p.source).map fun (step, after, source) =>
      (sequence.id, step,
        ⟨{ p.score with sequences := p.score.sequences.set index after }, source⟩)

theorem draw?_eq_some {index : Nat} {p drawn : Performance ρ} {sequenceId : String} {step : Step}
    (h : p.draw? index = some (sequenceId, step, drawn))
    : ∃ sequence after,
        p.score.sequences[index]? = some sequence
          ∧ sequence.next? p.source = some (step, after, drawn.source)
          ∧ drawn.score = { p.score with sequences := p.score.sequences.set index after } := by
  unfold draw? at h
  obtain ⟨sequence, hget, hgiven⟩ := Option.bind_eq_some_iff.mp h
  obtain ⟨given, hnext, hdrawn⟩ := Option.map_eq_some_iff.mp hgiven
  obtain ⟨other, after, source⟩ := given
  simp only [Prod.mk.injEq] at hdrawn
  obtain ⟨_, hstep, hafter⟩ := hdrawn
  rw [hstep] at hnext
  rw [← hafter]
  exact ⟨sequence, after, hget, hnext, rfl⟩

theorem advance_eq (clock : Clock ρ) (fire : Firing ρ) (index : Nat) (p : Performance ρ)
    : p.advance clock fire index
        =
      match p.draw? index with
      | none => (none, p)
      | some (sequenceId, step, drawn) =>
        (some step, execute clock fire sequenceId step drawn) := by
  unfold advance draw?
  cases p.score.sequences[index]? with
  | none => rfl
  | some sequence =>
    dsimp only [Option.bind_some]
    cases sequence.next? p.source with
    | none => rfl
    | some => rfl

/--
`R` survives whatever the carrying out of a step does to two performances at once. The sequences
that are not hidden give the same steps in both, and what the hidden ones give makes no difference
to `R`.
-/
structure Coupled (clock : Clock ρ) (other : Clock σ) (Hidden : Nat → Prop)
    (R : Performance ρ → Performance σ → Prop) : Prop where
  draw {p : Performance ρ} {q : Performance σ} {index : Nat} :
    R p q → ¬Hidden index →
      (p.draw? index = none ∧ q.draw? index = none)
        ∨ ∃ sequenceId step p' q',
            p.draw? index = some (sequenceId, step, p')
              ∧ q.draw? index = some (sequenceId, step, q') ∧ R p' q'
  conceal {p : Performance ρ} {q : Performance σ} {index : Nat} (room : Nat) :
    R p q → Hidden index →
      R (p.advance clock (dispatch clock room) index).2
        (q.advance other (dispatch other room) index).2
  postpone {p : Performance ρ} {q : Performance σ} (sequenceId : String) (step : Step) :
    R p q → R (p.postpone clock sequenceId step) (q.postpone other sequenceId step)
  carryOut {p : Performance ρ} {q : Performance σ} (sequenceId : String) (step : Step) :
    R p q → R (p.carryOut clock sequenceId step) (q.carryOut other sequenceId step)

namespace Coupled

variable {clock : Clock ρ} {other : Clock σ} {Hidden : Nat → Prop}
variable {R : Performance ρ → Performance σ → Prop}

theorem execute (h : Coupled clock other Hidden R) {fire : Firing ρ} {fire' : Firing σ}
    (hfire : ∀ (sequenceId : String) (step : Step) {p : Performance ρ} {q : Performance σ},
      R p q → R (fire sequenceId step p) (fire' sequenceId step q))
    (sequenceId : String) (step : Step) {p : Performance ρ} {q : Performance σ} (hR : R p q)
    : R (Performance.execute clock fire sequenceId step p)
        (Performance.execute other fire' sequenceId step q) := by
  unfold Performance.execute
  split
  . apply h.postpone sequenceId step hR
  . apply hfire sequenceId step hR

theorem advance (h : Coupled clock other Hidden R) {fire : Firing ρ} {fire' : Firing σ}
    (hfire : ∀ (sequenceId : String) (step : Step) {p : Performance ρ} {q : Performance σ},
      R p q → R (fire sequenceId step p) (fire' sequenceId step q))
    {index : Nat} (hindex : ¬Hidden index) {p : Performance ρ} {q : Performance σ} (hR : R p q)
    : (p.advance clock fire index).1 = (q.advance other fire' index).1
        ∧ R (p.advance clock fire index).2 (q.advance other fire' index).2 := by
  rw [advance_eq, advance_eq]
  obtain ⟨hp, hq⟩ | ⟨sequenceId, step, p', q', hp, hq, hR⟩ := h.draw hR hindex
  . rw [hp, hq]
    exact ⟨rfl, hR⟩
  . rw [hp, hq]
    exact ⟨rfl, h.execute hfire sequenceId step hR⟩

theorem dispatch (h : Coupled clock other Hidden R) (room : Nat)
    : ∀ (sequenceId : String) (step : Step) {p : Performance ρ} {q : Performance σ},
        R p q →
          R (dispatch clock room sequenceId step p) (dispatch other room sequenceId step q) := by
  induction room with
  | zero =>
    intro _ _ _ _ hR
    exact hR
  | succ room ih =>
    intro sequenceId step p q hR
    cases hgroup : step.isGroup with
    | true =>
      rw [dispatch_group _ _ _ _ _ hgroup, dispatch_group _ _ _ _ _ hgroup]
      generalize step.substeps = substeps
      induction substeps generalizing p q with
      | nil => exact hR
      | cons substep substeps ihs => exact ihs (h.execute ih sequenceId substep hR)
    | false =>
      rw [dispatch_single _ _ _ _ _ hgroup, dispatch_single _ _ _ _ _ hgroup]
      have hcarried := h.carryOut sequenceId step hR
      cases step.starts? with
      | none => exact hcarried
      | some index =>
        by_cases hindex : Hidden index
        . apply h.conceal room hcarried hindex
        . exact (h.advance ih hindex hcarried).2

theorem start (h : Coupled clock other Hidden R) (index : Nat) (hindex : ¬Hidden index)
    {p : Performance ρ} {q : Performance σ} (hR : R p q)
    : (p.advance clock (Performance.fire clock) index).1
          = (q.advance other (Performance.fire other) index).1
        ∧ R (p.advance clock (Performance.fire clock) index).2
            (q.advance other (Performance.fire other) index).2 := by
  apply h.advance
  . intro sequenceId step p q hR
    apply h.dispatch maxDepth sequenceId step hR
  . exact hindex
  . exact hR

end Coupled

end Narrative.Performance
