import Narrative.Proofs.Ordered

/-!
This module contains when a sequence that is played in order has no step to give, and how a cue can
leave it without one in the middle of a pass.
-/

namespace Narrative

namespace Sequence

/--
What keeps a sequence from giving a step by rights: it has none, it is over, or it waits for a reset
between two passes.
-/
def MayRest (s : Sequence) : Prop :=
  s.steps = [] ∨ s.exhausted = true ∨ s.isPaused = true

/--
The cursor is behind all steps while the pass has not ended.
-/
def isStranded (s : Sequence) : Bool :=
  !s.steps.isEmpty && !s.completed && s.size ≤ s.nextIndex

theorem isStranded_iff {s : Sequence}
    : s.isStranded = true ↔ s.steps ≠ [] ∧ s.completed = false ∧ s.size ≤ s.nextIndex := by
  unfold isStranded
  simp [and_assoc]

theorem isStranded_of_lt {s : Sequence} (h : s.nextIndex < s.size) : s.isStranded = false := by
  rw [← Bool.not_eq_true, isStranded_iff]
  omega

theorem isStranded_of_cursor_eq_none {s : Sequence} (h : s.cursor = none)
    : s.isStranded = false := by
  rw [← Bool.not_eq_true, isStranded_iff, ← List.length_pos_iff]
  unfold nextIndex size
  rw [h]
  dsimp only
  omega

theorem isStranded_withCursor {s : Sequence} {index : Nat} (h : index < s.size)
    : isStranded { s with cursor := some index } = (!s.completed && index + 1 = s.size) := by
  have hsteps := List.length_pos_iff.mp (Nat.zero_lt_of_lt h)
  have hbehind : s.size ≤ index + 1 ↔ index + 1 = s.size := by omega
  rw [Bool.eq_iff_iff, isStranded_iff, Bool.and_eq_true, Bool.not_eq_true', decide_eq_true_eq,
    ← hbehind]
  exact and_iff_right hsteps

theorem isStranded_advanced {s : Sequence} (hexhausted : s.exhausted = false)
    : s.advanced.isStranded = false := by
  unfold advanced
  dsimp only
  split
  . rw [endPass_eq (s := s.moveTo s.nextIndex) hexhausted]
    dsimp only
    split
    . exact isStranded_of_cursor_eq_none rfl
    . simp [isStranded, halt]
  . next hbelow =>
    apply isStranded_of_lt
    rw [Nat.not_le] at hbelow
    exact hbelow

namespace Coherent

variable {ρ : Type} [RandomSource ρ] {s : Sequence}

theorem next?_eq_none_iff (h : s.Coherent) (source : ρ)
    : s.next? source = none ↔ s.exhausted = true ∨ s.size ≤ s.nextIndex := by
  rw [h.next?_eq]
  cases s.exhausted with
  | true => simp
  | false => simp [size]

theorem mayRest_iff (h : s.Coherent) (source : ρ)
    : (s.next? source = none → s.MayRest) ↔ s.isStranded = false := by
  rw [h.next?_eq_none_iff]
  unfold MayRest isStranded
  cases hcompleted : s.completed with
  | true =>
    cases hexhausted : s.exhausted with
    | true => simp
    | false => simp [h.paused hcompleted hexhausted]
  | false =>
    have hexhausted : s.exhausted = false := by
      rw [← Bool.not_eq_true]
      intro hexhausted
      simp [h.completed hexhausted] at hcompleted
    have hpaused : s.isPaused = false := by simp [isPaused, hcompleted]
    by_cases hempty : s.steps = []
    . simp [hempty]
    . simp [hempty, hexhausted, hpaused]

theorem next?_eq_none_iff_isStranded (h : s.Coherent) (hrepeats : s.repeats = true)
    (hcount : s.count = none) (hsteps : s.steps ≠ []) (source : ρ)
    : s.next? source = none ↔ s.isStranded = true := by
  have hexhausted : s.exhausted = false := by
    rw [← Bool.not_eq_true]
    intro hexhausted
    have := h.spent hexhausted
    simp [isSpent, hrepeats, hcount] at this
  have hcompleted : s.completed = false := by
    have := h.not_completed_and_repeats hexhausted
    simpa [hrepeats] using this
  rw [h.next?_eq_none_iff]
  simp [isStranded, hexhausted, hcompleted, hsteps]

end Coherent

end Sequence

namespace Recital

variable {ρ : Type} [RandomSource ρ]

theorem take_isStranded (move : Sequence.Move) {r : Recital ρ} (h : r.sequence.Coherent)
    : (r.take move).sequence.isStranded
        =
      match move with
      | .next => r.sequence.isStranded
      | .reset | .rewind => false
      | .seek stepId => (r.sequence.ownerOf? stepId).isNone && r.sequence.isStranded
      | .matchDate date =>
        match r.sequence.dated? date with
        | none => r.sequence.isStranded
        | some index => !r.sequence.completed && index + 1 = r.sequence.size := by
  cases move with
  | next =>
    dsimp only [take]
    rw [next_sequence h]
    split
    . rfl
    . next hleft =>
      rw [not_or, Bool.not_eq_true, Nat.not_le] at hleft
      rw [Sequence.isStranded_advanced hleft.1, Sequence.isStranded_of_lt hleft.2]
  | reset => exact Sequence.isStranded_of_cursor_eq_none rfl
  | rewind => exact Sequence.isStranded_of_cursor_eq_none rfl
  | seek stepId =>
    dsimp only [take]
    rw [Sequence.seek_eq]
    split
    . next hnone => simp [hnone]
    . next index hsome =>
      have hlt := Sequence.ownerOf?_lt hsome
      rw [hsome]
      cases index with
      | zero => exact Sequence.isStranded_of_cursor_eq_none rfl
      | succ index => exact Sequence.isStranded_of_lt hlt
  | matchDate date =>
    dsimp only [take]
    rw [Sequence.matchDate?_eq]
    cases hdated : r.sequence.dated? date with
    | none => rfl
    | some index =>
      exact Sequence.isStranded_withCursor (Sequence.dated?_lt hdated)

theorem run_isStranded (moves : List Sequence.Move) {r : Recital ρ} (h : r.sequence.Coherent)
    (hstranded : (r.run moves).sequence.isStranded = true)
    : r.sequence.isStranded = true
        ∨ ∃ date, .matchDate date ∈ moves
            ∧ r.sequence.dated? date = some (r.sequence.size - 1) := by
  induction moves generalizing r with
  | nil => exact Or.inl hstranded
  | cons move moves ih =>
    have hsame := r.take_rewind move
    have hdated (date : Instant) : (r.take move).sequence.dated? date = r.sequence.dated? date :=
      congrArg (·.dated? date) hsame
    have hsize : (r.take move).sequence.size = r.sequence.size := congrArg (·.size) hsame
    cases ih (take_coherent move h) hstranded with
    | inl hmoved =>
      rw [take_isStranded move h] at hmoved
      cases move with
      | next => exact Or.inl hmoved
      | reset => contradiction
      | rewind => contradiction
      | seek stepId =>
        rw [Bool.and_eq_true] at hmoved
        exact Or.inl hmoved.2
      | matchDate date =>
        dsimp only at hmoved
        split at hmoved
        . exact Or.inl hmoved
        . next index hindex =>
          simp only [Bool.and_eq_true, Bool.not_eq_true', decide_eq_true_eq] at hmoved
          refine Or.inr ⟨date, List.mem_cons_self, ?_⟩
          rw [hindex, ← hmoved.2]
          rfl
    | inr hlater =>
      obtain ⟨date, hmem, hlast⟩ := hlater
      rw [hdated, hsize] at hlast
      exact Or.inr ⟨date, List.mem_cons_of_mem _ hmem, hlast⟩

theorem next_of_isStranded {r : Recital ρ} (h : r.sequence.Coherent)
    (hstranded : r.sequence.isStranded = true)
    : r.next = { r with given := r.given ++ [none] } := by
  have hbehind : r.sequence.size ≤ r.sequence.nextIndex := by
    simp only [Sequence.isStranded, Bool.and_eq_true, decide_eq_true_eq] at hstranded
    exact hstranded.2
  unfold next
  rw [(h.next?_eq_none_iff r.source).mpr (Or.inr hbehind)]

theorem run_replicate_of_isStranded (count : Nat) {r : Recital ρ} (h : r.sequence.Coherent)
    (hstranded : r.sequence.isStranded = true)
    : r.run (.replicate count .next) = { r with given := r.given ++ .replicate count none } := by
  induction count with
  | zero => simp [run]
  | succ count ih =>
    have hnext := next_of_isStranded (r := { r with given := r.given ++ .replicate count none })
      h hstranded
    rw [List.replicate_succ', run_concat, ih, take, hnext, List.append_assoc,
      ← List.replicate_succ']

/--
A sequence that is played in order gives no step only if it rests by rights, unless its cursor is
behind all steps in the middle of a pass. Only a cue to a date which is found at the last step first
brings that about, and then no advance helps. One that repeats without a count never rests by
rights.
-/
theorem run_mayRest_iff (id : String) (steps : List Step) (repeats : Bool) (count : Option Nat)
    (grouping : Option String) (source : ρ) (moves : List Sequence.Move)
    : let start : Sequence := { id, steps, repeats, count, grouping }
      let r := ({ sequence := start, source } : Recital ρ).run moves
      let s := r.sequence
      ((s.next? r.source = none → s.MayRest) ↔ s.isStranded = false)
        ∧ (s.isStranded = true →
            ∃ date, .matchDate date ∈ moves ∧ start.dated? date = some (start.size - 1))
        ∧ (s.isStranded = true →
            ∀ calls, (r.run (.replicate calls .next)).given = r.given ++ .replicate calls none)
        ∧ (repeats = true → count = none → steps ≠ [] →
            (s.next? r.source = none ↔ s.isStranded = true)) := by
  intro start r s
  have hstart : start.Coherent := ⟨rfl, by simp [start], by simp [start], by simp [start]⟩
  have h : s.Coherent := run_coherent moves hstart
  have hsame : s.rewind = start := run_rewind moves { sequence := start, source }
  refine ⟨h.mayRest_iff r.source, ?_, ?_, ?_⟩
  . intro hstranded
    cases run_isStranded moves hstart hstranded with
    | inl hnow =>
      rw [Sequence.isStranded_of_cursor_eq_none rfl] at hnow
      contradiction
    | inr hcue => exact hcue
  . intro hstranded calls
    rw [run_replicate_of_isStranded calls h hstranded]
  . intro hrepeats hcount hsteps
    apply h.next?_eq_none_iff_isStranded
    . rw [← hrepeats]
      exact congrArg Sequence.repeats hsame
    . rw [← hcount]
      exact congrArg Sequence.count hsame
    . have : s.steps = steps := congrArg Sequence.steps hsame
      rw [this]
      exact hsteps

/--
The cue is to the date of the last step, and no pass is over yet.
-/
theorem next?_eq_none_and_not_mayRest
    : let last : Step := .mk { id := 1, command := .setDate (some default) } []
      let start : Sequence := { id := "main", steps := [.mk { id := 0 } [], last], repeats := true }
      let r := ({ sequence := start, source := .ofSeed 0 } : Recital SeededSource).run
        [.matchDate default]
      r.sequence.next? r.source = none ∧ ¬r.sequence.MayRest := by
  intro last start r
  constructor
  . rfl
  . rintro (h | h | h)
    . contradiction
    . contradiction
    . contradiction

end Recital

end Narrative
