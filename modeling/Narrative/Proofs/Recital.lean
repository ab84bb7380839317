import Narrative.Proofs.Advance

/-!
This module contains recitals of a sequence on its own: what may be asked of it move by move, and
what it has given so far.
-/

namespace Narrative

inductive Sequence.Move where
  | next
  | reset
  | rewind
  | seek (stepId : Nat)
  | matchDate (date : Instant)
deriving DecidableEq

/--
A sequence, what its advances gave since the start or the last rewind, and where the cursor stood
after each of those that gave a step.
-/
structure Recital (ρ : Type) where
  sequence : Sequence
  source : ρ
  given : List (Option Step) := []
  drawn : List Nat := []

namespace Sequence

def dated? (s : Sequence) (date : Instant) : Option Nat :=
  s.steps.findIdx? fun step => step.date? = some date

theorem seek_eq (s : Sequence) (stepId : Nat)
    : (s.seek stepId).toOption.getD s
        =
      match s.ownerOf? stepId with
      | none => s
      | some index => { s with cursor := if index = 0 then none else some (index - 1) } := by
  unfold seek
  cases s.ownerOf? stepId with
  | none => rfl
  | some index => cases index <;> rfl

theorem matchDate?_eq (s : Sequence) (date : Instant)
    : s.matchDate? date = (s.dated? date).map fun index => { s with cursor := some index } := by
  unfold matchDate? dated?
  split
  . next hnone => simp [hnone]
  . next hsome => simp [hsome]

theorem cue_eq (atDate : Option Instant) (s : Sequence)
    : (atDate.bind s.matchDate?).getD s
        =
      match atDate.bind s.dated? with
      | none => s
      | some index => { s with cursor := some index } := by
  cases atDate with
  | none => rfl
  | some date =>
    rw [Option.bind_some, Option.bind_some, matchDate?_eq]
    cases s.dated? date with
    | none => rfl
    | some index => rfl

theorem cue_rewind (atDate : Option Instant) (s : Sequence)
    : ((atDate.bind s.matchDate?).getD s).rewind = s.rewind := by
  rw [cue_eq]
  split
  . rfl
  . rfl

theorem ownerOf?_lt {s : Sequence} {stepId index : Nat} (h : s.ownerOf? stepId = some index)
    : index < s.size := by
  unfold ownerOf? at h
  cases hown : s.steps.findIdx? fun step => step.id == stepId with
  | none =>
    rw [hown] at h
    exact (List.findIdx?_eq_some_iff_getElem.mp h).1
  | some =>
    rw [hown] at h
    rw [← Option.some.inj h]
    exact (List.findIdx?_eq_some_iff_getElem.mp hown).1

theorem dated?_lt {s : Sequence} {date : Instant} {index : Nat} (h : s.dated? date = some index)
    : index < s.size :=
  (List.findIdx?_eq_some_iff_getElem.mp h).1

end Sequence

variable {ρ : Type} [RandomSource ρ]

namespace Recital

def next (r : Recital ρ) : Recital ρ :=
  match r.sequence.next? r.source with
  | none => { r with given := r.given ++ [none] }
  | some (step, sequence, source) =>
    { sequence, source, given := r.given ++ [some step],
      drawn := r.drawn ++ sequence.cursor.toList }

def take (move : Sequence.Move) (r : Recital ρ) : Recital ρ :=
  match move with
  | .next => r.next
  | .reset => { r with sequence := r.sequence.reset }
  | .rewind => { sequence := r.sequence.rewind, source := r.source }
  | .seek stepId => { r with sequence := (r.sequence.seek stepId).toOption.getD r.sequence }
  | .matchDate date => { r with sequence := (r.sequence.matchDate? date).getD r.sequence }

def run (moves : List Sequence.Move) (r : Recital ρ) : Recital ρ :=
  moves.foldl (fun r move => r.take move) r

theorem run_append (moves others : List Sequence.Move) (r : Recital ρ)
    : r.run (moves ++ others) = (r.run moves).run others := by
  simp [run]

theorem run_concat (moves : List Sequence.Move) (move : Sequence.Move) (r : Recital ρ)
    : r.run (moves ++ [move]) = (r.run moves).take move := by
  simp [run]

end Recital

namespace Sequence

omit [RandomSource ρ] in
theorem endPass_rewind (s : Sequence) : s.endPass.rewind = s.rewind := by
  unfold endPass
  dsimp
  split
  . split <;> rfl
  . split <;> rfl

omit [RandomSource ρ] in
theorem afterDraw_eq (s : Sequence) (index : Nat)
    : s.afterDraw index
        =
      { s with
        cursor := some index
        used := if s.used.length + 1 < s.size then s.used ++ [index] else []
        completions := s.completions + 1
        completed := true
        exhausted := s.exhausted || s.count.any (· ≤ s.completions + 1) } := by
  have hused : (if (s.used ++ [index]).length ≥ s.size then [] else s.used ++ [index])
      = if s.used.length + 1 < s.size then s.used ++ [index] else [] := by
    rw [List.length_append, List.length_singleton]
    split
    . rw [if_neg (by omega)]
    . rw [if_pos (by omega)]
  unfold afterDraw countReached
  dsimp only
  rw [hused]
  cases hcount : s.count with
  | none => simp
  | some count =>
    by_cases hreached : count ≤ s.completions + 1
    . simp [hreached]
    . simp [hreached]

omit [RandomSource ρ] in
theorem nextOrdered?_rewind {s after : Sequence} {step : Step}
    (h : s.nextOrdered? = some (step, after))
    : after.rewind = s.rewind := by
  obtain ⟨start, hstart, _, hafter⟩ := nextOrdered?_cases h
  have hsame : start.rewind = s.rewind := by
    rw [hstart]
    split <;> rfl
  rw [hafter, ← hsame]
  split
  . apply endPass_rewind
  . rfl

theorem next?_rewind {s after : Sequence} {source left : ρ} {step : Step}
    (h : s.next? source = some (step, after, left))
    : after.rewind = s.rewind := by
  obtain ⟨_, ⟨_, _, _, _, hafter⟩ | ⟨_, hordered, _⟩⟩ := next?_cases h
  . rw [hafter, afterDraw_eq]
    rfl
  . apply nextOrdered?_rewind hordered

end Sequence

namespace Recital

theorem take_seek_eq (stepId : Nat) (r : Recital ρ)
    : ∃ cursor, r.take (.seek stepId) = { r with sequence := { r.sequence with cursor } } := by
  dsimp only [take]
  rw [Sequence.seek_eq]
  split
  . exact ⟨_, rfl⟩
  . exact ⟨_, rfl⟩

theorem take_matchDate_eq (date : Instant) (r : Recital ρ)
    : ∃ cursor, r.take (.matchDate date) = { r with sequence := { r.sequence with cursor } } := by
  dsimp only [take]
  rw [Sequence.matchDate?_eq]
  cases r.sequence.dated? date with
  | none => exact ⟨_, rfl⟩
  | some => exact ⟨_, rfl⟩

/--
What is authored of a sequence stays, and only that, when it is rewound.
-/
theorem take_rewind (move : Sequence.Move) (r : Recital ρ)
    : (r.take move).sequence.rewind = r.sequence.rewind := by
  cases move with
  | next =>
    dsimp only [take, next]
    split
    . rfl
    . next hnext => exact Sequence.next?_rewind hnext
  | reset => rfl
  | rewind => rfl
  | seek stepId =>
    obtain ⟨_, hcue⟩ := r.take_seek_eq stepId
    rw [hcue]
    rfl
  | matchDate date =>
    obtain ⟨_, hcue⟩ := r.take_matchDate_eq date
    rw [hcue]
    rfl

theorem run_rewind (moves : List Sequence.Move) (r : Recital ρ)
    : (r.run moves).sequence.rewind = r.sequence.rewind := by
  induction moves generalizing r with
  | nil => rfl
  | cons move moves ih =>
    rw [← r.take_rewind move]
    apply ih

end Recital

end Narrative
