import Narrative.Sequence.Playback

/-!
This module contains when a sequence has a step to give, and what giving one can do.
-/

namespace Narrative

namespace Sequence

def isAble (s : Sequence) : Bool :=
  !s.steps.isEmpty && !s.exhausted && (s.shuffle || s.nextIndex < s.size)

def startsOver (s : Sequence) : Bool :=
  !s.steps.isEmpty && !s.exhausted && s.completed && s.repeats

variable {ρ : Type} [RandomSource ρ]

theorem drawUnused_lt {used : List Nat} {size attempts index : Nat} {source left : ρ}
    (hsize : 0 < size) (h : drawUnused used size attempts source = (some index, left))
    : index < size := by
  induction attempts generalizing source with
  | zero => simp [drawUnused] at h
  | succ attempts ih =>
    unfold drawUnused at h
    dsimp at h
    split at h
    . exact ih h
    . simp only [Prod.mk.injEq, Option.some.injEq] at h
      rw [← h.1]
      exact Nat.mod_lt _ hsize

omit [RandomSource ρ] in
theorem firstUnused_lt {used : List Nat} {size : Nat} (hsize : 0 < size)
    : firstUnused used size < size := by
  unfold firstUnused
  cases hfind : (List.range size).find? fun index => !used.contains index with
  | none => exact hsize
  | some index => exact List.mem_range.mp (List.mem_of_find?_eq_some hfind)

theorem drawIndex_lt (s : Sequence) (source : ρ) (hsize : 0 < s.size)
    : (s.drawIndex source).1 < s.size := by
  unfold drawIndex
  split
  . next hdraw => exact drawUnused_lt hsize hdraw
  . exact firstUnused_lt hsize

theorem nextShuffled?_isSome (s : Sequence) (source : ρ) (hsize : 0 < s.size)
    : (s.nextShuffled? source).isSome = true := by
  have hlt := s.drawIndex_lt source hsize
  unfold nextShuffled?
  dsimp
  rw [List.getElem?_eq_getElem hlt]
  rfl

omit [RandomSource ρ] in
theorem nextOrdered?_isSome (s : Sequence) (hsize : 0 < s.size)
    : s.nextOrdered?.isSome = (decide (s.nextIndex < s.size) || (s.completed && s.repeats)) := by
  unfold nextOrdered?
  cases hover : s.completed && s.repeats with
  | true =>
    have hget : s.reset.steps[s.reset.nextIndex]? = some s.steps[0] :=
      List.getElem?_eq_getElem hsize
    simp [hget]
  | false =>
    dsimp
    split
    . next hget =>
      have := List.getElem?_eq_none_iff.mp hget
      simp [size, Nat.not_lt.mpr this]
    . next hget =>
      have := (List.getElem?_eq_some_iff.mp hget).1
      simp [size, this]

theorem next?_isSome (s : Sequence) (source : ρ)
    : (s.next? source).isSome = (s.isAble || s.startsOver) := by
  unfold next? isAble startsOver
  cases hempty : s.steps.isEmpty with
  | true => simp
  | false =>
    cases hexhausted : s.exhausted with
    | true => simp
    | false =>
      have hsize : 0 < s.size := by
        rw [size, List.length_pos_iff]
        simpa using hempty
      cases hshuffle : s.shuffle with
      | true => simp [s.nextShuffled?_isSome source hsize]
      | false => simp [s.nextOrdered?_isSome hsize]

omit [RandomSource ρ] in
/--
A step that is given in order is the next one, after a reset where a pass is to start over, and the
last step of a pass ends it.
-/
theorem nextOrdered?_cases {s after : Sequence} {step : Step}
    (h : s.nextOrdered? = some (step, after))
    : ∃ start : Sequence,
        start = (if s.completed && s.repeats then s.reset else s)
          ∧ start.steps[start.nextIndex]? = some step
          ∧ after
              =
            if start.nextIndex + 1 ≥ start.size then (start.moveTo start.nextIndex).endPass
            else start.moveTo start.nextIndex := by
  refine ⟨_, rfl, ?_⟩
  unfold nextOrdered? at h
  dsimp only at h
  split at h
  . contradiction
  . next hget =>
    simp only [Option.some.injEq, Prod.mk.injEq] at h
    rw [← h.1, ← h.2]
    exact ⟨hget, rfl⟩

/--
A step that is given is either drawn, or the next one in order, which takes nothing from the source.
-/
theorem next?_cases {s after : Sequence} {source left : ρ} {step : Step}
    (h : s.next? source = some (step, after, left))
    : s.exhausted = false
        ∧ ((s.shuffle = true
              ∧ ∃ index,
                s.drawIndex source = (index, left)
                  ∧ s.steps[index]? = some step
                  ∧ after = s.afterDraw index)
            ∨ (s.shuffle = false ∧ s.nextOrdered? = some (step, after) ∧ left = source)) := by
  unfold next? at h
  split at h
  . contradiction
  . next hable =>
    simp only [Bool.or_eq_true, not_or, Bool.not_eq_true] at hable
    refine ⟨hable.2, ?_⟩
    split at h
    . next hshuffle =>
      unfold nextShuffled? at h
      dsimp only at h
      split at h
      . contradiction
      . next hget =>
        simp only [Option.some.injEq, Prod.mk.injEq] at h
        obtain ⟨hstep, hafter, hleft⟩ := h
        exact .inl ⟨hshuffle, _, Prod.ext rfl hleft, hget.trans (congrArg some hstep), hafter.symm⟩
    . next hshuffle =>
      simp only [Option.map_eq_some_iff, Prod.mk.injEq, Prod.exists] at h
      obtain ⟨_, _, hnext, hstep, hafter, hleft⟩ := h
      rw [hstep, hafter] at hnext
      exact .inr ⟨Bool.eq_false_iff.mpr hshuffle, hnext, hleft.symm⟩

end Sequence

end Narrative
