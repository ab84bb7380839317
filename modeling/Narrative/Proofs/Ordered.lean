import Narrative.Proofs.Advance
import Narrative.Proofs.Recital

/-!
This module contains the state of a sequence that is played in order: how its flags agree with one
another, and what its advance gives.
-/

namespace Narrative

namespace Sequence

/--
The pause between two passes of a sequence that does not repeat and has not reached its count.
-/
def isPaused (s : Sequence) : Bool :=
  s.completed && !s.repeats && s.count.any (s.completions < ·)

/--
No pass is left, as far as the count goes and else the repetition.
-/
def isSpent (s : Sequence) : Bool :=
  match s.count with
  | none => !s.repeats
  | some count => count ≤ s.completions

def withPasses (s : Sequence) (passes : Nat) : Sequence :=
  { s with completions := passes }

def halt (s : Sequence) : Sequence :=
  { s with completed := true, exhausted := s.isSpent }

structure Coherent (s : Sequence) : Prop where
  shuffle : s.shuffle = false
  completed : s.exhausted = true → s.completed = true
  spent : s.exhausted = true → s.isSpent = true
  paused : s.completed = true → s.exhausted = false → s.isPaused = true

def advanced (s : Sequence) : Sequence :=
  let after := s.moveTo s.nextIndex
  if s.nextIndex + 1 ≥ s.size then after.endPass else after

theorem isPaused_eq (s : Sequence) : s.isPaused = (s.completed && !s.repeats && !s.isSpent) := by
  unfold isPaused isSpent
  cases s.count with
  | none => cases s.repeats <;> simp
  | some count =>
    dsimp only [Option.any_some]
    rw [← decide_not, decide_eq_decide.mpr Nat.not_le]

theorem isSpent_of_not_repeats {s : Sequence} (h : s.repeats = false)
    : s.isSpent = s.count.all (· ≤ s.completions) := by
  unfold isSpent
  cases s.count with
  | none => simp [h]
  | some count => rfl

theorem endPass_eq {s : Sequence} (h : s.exhausted = false)
    : s.endPass
        =
      let after := s.withPasses (s.completions + 1)
      if s.repeats && !after.isSpent then after.reset else after.halt := by
  unfold endPass withPasses halt isSpent countReached
  cases s.count with
  | none => cases s.repeats <;> simp
  | some count =>
    by_cases hreached : count ≤ s.completions + 1
    . cases s.repeats <;> simp [hreached]
    . cases s.repeats <;> simp [hreached, h]

namespace Coherent

variable {s : Sequence}

theorem not_completed_and_repeats (h : s.Coherent) (hexhausted : s.exhausted = false)
    : (s.completed && s.repeats) = false := by
  cases hcompleted : s.completed with
  | false => rfl
  | true =>
    have := h.paused hcompleted hexhausted
    unfold isPaused at this
    simp_all

theorem next?_eq {ρ : Type} [RandomSource ρ] (h : s.Coherent) (source : ρ)
    : s.next? source
        =
      if s.exhausted then none
      else s.steps[s.nextIndex]?.map fun step => (step, s.advanced, source) := by
  unfold next?
  cases hexhausted : s.exhausted with
  | true => simp
  | false =>
    rw [h.shuffle]
    unfold nextOrdered?
    rw [h.not_completed_and_repeats hexhausted]
    cases hget : s.steps[s.nextIndex]? with
    | none => simp [hget]
    | some step =>
      have := List.ne_nil_of_mem (List.mem_of_getElem? hget)
      simp [hget, this, advanced]

theorem reset (hshuffle : s.shuffle = false) : s.reset.Coherent where
  shuffle := hshuffle
  completed := by simp [Sequence.reset]
  spent := by simp [Sequence.reset]
  paused := by simp [Sequence.reset]

theorem rewind (h : s.Coherent) : s.rewind.Coherent where
  shuffle := h.shuffle
  completed := by simp [Sequence.rewind, Sequence.reset]
  spent := by simp [Sequence.rewind, Sequence.reset]
  paused := by simp [Sequence.rewind, Sequence.reset]

theorem of_fresh (hfresh : s.rewind = s) (hshuffle : s.shuffle = false) : s.Coherent := by
  rw [← hfresh]
  exact (reset hshuffle).rewind

theorem withCursor (h : s.Coherent) (cursor : Option Nat) : Coherent { s with cursor } :=
  ⟨h.shuffle, h.completed, h.spent, h.paused⟩

theorem moveTo (h : s.Coherent) (index : Nat) : (s.moveTo index).Coherent :=
  ⟨h.shuffle, h.completed, h.spent, h.paused⟩

theorem halt (hshuffle : s.shuffle = false) (hlast : (s.repeats && !s.isSpent) = false)
    : s.halt.Coherent := by
  refine ⟨hshuffle, fun _ => rfl, fun hspent => hspent, ?_⟩
  intro _ hspent
  have hspent : s.isSpent = false := hspent
  rw [hspent, Bool.not_false, Bool.and_true] at hlast
  rw [isPaused_eq]
  change (true && !s.repeats && !s.isSpent) = true
  simp [hlast, hspent]

theorem endPass (h : s.Coherent) (hexhausted : s.exhausted = false) : s.endPass.Coherent := by
  rw [endPass_eq hexhausted]
  dsimp only
  split
  . exact .reset h.shuffle
  . next hlast =>
    rw [Bool.not_eq_true] at hlast
    exact .halt h.shuffle hlast

theorem advanced (h : s.Coherent) (hexhausted : s.exhausted = false) : s.advanced.Coherent := by
  unfold Sequence.advanced
  dsimp only
  split
  . exact (h.moveTo _).endPass hexhausted
  . exact h.moveTo _

end Coherent

end Sequence

namespace Recital

variable {ρ : Type} [RandomSource ρ]

theorem next_sequence {r : Recital ρ} (h : r.sequence.Coherent)
    : r.next.sequence
        =
      if r.sequence.exhausted = true ∨ r.sequence.size ≤ r.sequence.nextIndex then r.sequence
      else r.sequence.advanced := by
  unfold next
  rw [h.next?_eq]
  cases hexhausted : r.sequence.exhausted with
  | true => simp
  | false =>
    cases hget : r.sequence.steps[r.sequence.nextIndex]? with
    | none =>
      have := List.getElem?_eq_none_iff.mp hget
      simp [Sequence.size, this]
    | some step =>
      have := (List.getElem?_eq_some_iff.mp hget).1
      simp [Sequence.size, Nat.not_le.mpr this]

theorem next_given {r : Recital ρ} (h : r.sequence.Coherent)
    : r.next.given
        =
      r.given ++ [if r.sequence.exhausted then none
        else r.sequence.steps[r.sequence.nextIndex]?] := by
  unfold next
  rw [h.next?_eq]
  cases r.sequence.exhausted with
  | true => simp
  | false => cases r.sequence.steps[r.sequence.nextIndex]? <;> simp

theorem take_coherent (move : Sequence.Move) {r : Recital ρ} (h : r.sequence.Coherent)
    : (r.take move).sequence.Coherent := by
  cases move with
  | next =>
    dsimp only [take]
    rw [next_sequence h]
    split
    . exact h
    . next hleft =>
      rw [not_or, Bool.not_eq_true] at hleft
      exact h.advanced hleft.1
  | reset => exact .reset h.shuffle
  | rewind => exact h.rewind
  | seek stepId =>
    obtain ⟨cursor, hcue⟩ := r.take_seek_eq stepId
    rw [hcue]
    exact h.withCursor cursor
  | matchDate date =>
    obtain ⟨cursor, hcue⟩ := r.take_matchDate_eq date
    rw [hcue]
    exact h.withCursor cursor

theorem run_coherent (moves : List Sequence.Move) {r : Recital ρ} (h : r.sequence.Coherent)
    : (r.run moves).sequence.Coherent := by
  induction moves generalizing r with
  | nil => exact h
  | cons move moves ih => exact ih (take_coherent move h)

end Recital

end Narrative
