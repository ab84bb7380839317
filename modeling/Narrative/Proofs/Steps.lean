import Mathlib.Algebra.GroupWithZero.Nat
import Narrative.Proofs.Dispatch

/-!
This module contains the trees of steps: the instructions in them, and the steps that they come down
to when they are carried out.
-/

namespace Narrative

namespace Step

theorem instructionsOfAll_eq (steps : List Step)
    : instructionsOfAll steps = steps.flatMap instructions := by
  induction steps with
  | nil => rfl
  | cons step steps ih => rw [instructionsOfAll, ih, List.flatMap_cons]

theorem instructions_subset {step substep : Step} (h : substep ∈ step.substeps)
    : substep.instructions ⊆ step.instructions := by
  cases step with
  | mk i substeps =>
    rw [instructions, instructionsOfAll_eq]
    intro other hother
    exact List.mem_cons_of_mem _ (List.mem_flatMap.mpr ⟨substep, h, hother⟩)

theorem instruction_mem (step : Step) : step.instruction ∈ step.instructions := by
  cases step with
  | mk => exact List.mem_cons_self

mutual

theorem instructions_map (f : Instruction → Instruction) (step : Step)
    : (step.map f).instructions = step.instructions.map f := by
  cases step with
  | mk i steps => rw [map, instructions, instructions, List.map_cons, instructionsOfAll_mapAll f steps]

theorem instructionsOfAll_mapAll (f : Instruction → Instruction) (steps : List Step)
    : instructionsOfAll (mapAll f steps) = (instructionsOfAll steps).map f := by
  cases steps with
  | nil => rfl
  | cons step steps =>
    rw [mapAll, instructionsOfAll, instructionsOfAll, List.map_append, instructions_map f step,
      instructionsOfAll_mapAll f steps]

end

theorem mapAll_eq (f : Instruction → Instruction) (steps : List Step)
    : mapAll f steps = steps.map (map f) := by
  induction steps with
  | nil => rfl
  | cons step steps ih => rw [mapAll, ih, List.map_cons]

def size (step : Step) : Nat :=
  step.instructions.length

theorem size_eq (step : Step) : step.size = (step.substeps.map size).sum + 1 := by
  cases step with
  | mk i substeps =>
    unfold size
    rw [instructions, instructionsOfAll_eq, List.length_cons, List.length_flatMap]
    rfl

mutual

/--
The steps that are not groups themselves, and are reached through groups only.
-/
def leaves : Step → List Step
  | mk i steps => if (mk i steps).isGroup then leavesOfAll steps else [mk i steps]

def leavesOfAll : List Step → List Step
  | [] => []
  | step :: steps => leaves step ++ leavesOfAll steps

end

theorem leavesOfAll_eq (steps : List Step) : leavesOfAll steps = steps.flatMap leaves := by
  induction steps with
  | nil => rfl
  | cons step steps ih => rw [leavesOfAll, ih, List.flatMap_cons]

theorem leaves_of_isGroup {step : Step} (h : step.isGroup = true)
    : step.leaves = step.substeps.flatMap leaves := by
  cases step with
  | mk i substeps =>
    rw [leaves, if_pos h, leavesOfAll_eq]
    rfl

theorem leaves_of_not_isGroup {step : Step} (h : step.isGroup = false) : step.leaves = [step] := by
  cases step with
  | mk i substeps => rw [leaves, if_neg (Bool.eq_false_iff.mp h)]

/--
`leaf` is reached from a step through `depth` groups, one inside another.
-/
inductive Reaches : Step → (depth : Nat) → (leaf : Step) → Prop where
  | here {step : Step} : step.isGroup = false → Reaches step 0 step
  | under {step substep leaf : Step} {depth : Nat} :
    step.isGroup = true → substep ∈ step.substeps → Reaches substep depth leaf →
      Reaches step (depth + 1) leaf

mutual

theorem reaches_of_mem_leaves {step leaf : Step} (h : leaf ∈ step.leaves)
    : ∃ depth, step.Reaches depth leaf := by
  cases step with
  | mk i substeps =>
    cases hgroup : (mk i substeps).isGroup with
    | true =>
      rw [leaves, if_pos hgroup] at h
      obtain ⟨substep, hmem, depth, hreaches⟩ := reaches_of_mem_leavesOfAll h
      exact ⟨depth + 1, .under hgroup hmem hreaches⟩
    | false =>
      rw [leaves, if_neg (Bool.eq_false_iff.mp hgroup), List.mem_singleton] at h
      rw [h]
      exact ⟨0, .here hgroup⟩

theorem reaches_of_mem_leavesOfAll {steps : List Step} {leaf : Step} (h : leaf ∈ leavesOfAll steps)
    : ∃ step ∈ steps, ∃ depth, step.Reaches depth leaf := by
  cases steps with
  | nil => exact nomatch h
  | cons step steps =>
    rw [leavesOfAll, List.mem_append] at h
    cases h with
    | inl hhere =>
      obtain ⟨depth, hreaches⟩ := reaches_of_mem_leaves hhere
      exact ⟨step, List.mem_cons_self, depth, hreaches⟩
    | inr hlater =>
      obtain ⟨other, hmem, hreaches⟩ := reaches_of_mem_leavesOfAll hlater
      exact ⟨other, List.mem_cons_of_mem _ hmem, hreaches⟩

end

/--
The step sets no sequence going, nor back.
-/
def isPlain (step : Step) : Bool :=
  match step.command with
  | .setSequence .. | .sample | .reset => false
  | _ => true

theorem starts?_of_isPlain {step : Step} (h : step.isPlain = true) : step.starts? = none := by
  unfold isPlain at h
  unfold starts?
  cases hcommand : step.command with
  | setSequence => simp [hcommand] at h
  | sample => simp [hcommand] at h
  | _ => rfl

/--
What is reached from the step is plain, and there is room for it.
-/
def Fits (room : Nat) (step : Step) : Prop :=
  ∀ depth leaf, step.Reaches depth leaf → depth < room ∧ leaf.isPlain = true

namespace Fits

variable {step : Step} {room : Nat}

theorem mono (h : step.Fits room) {more : Nat} (hmore : room ≤ more) : step.Fits more :=
  fun _ _ hreaches => ⟨Nat.lt_of_lt_of_le (h _ _ hreaches).1 hmore, (h _ _ hreaches).2⟩

theorem substep (h : step.Fits (room + 1)) (hgroup : step.isGroup = true) {substep : Step}
    (hmem : substep ∈ step.substeps)
    : substep.Fits room := by
  intro depth leaf hreaches
  have := h _ _ (.under hgroup hmem hreaches)
  exact ⟨Nat.lt_of_succ_lt_succ this.1, this.2⟩

theorem leaves_eq_nil (h : step.Fits 0) : step.leaves = [] := by
  rw [List.eq_nil_iff_forall_not_mem]
  intro leaf hmem
  obtain ⟨_, hreaches⟩ := reaches_of_mem_leaves hmem
  exact absurd (h _ _ hreaches).1 (Nat.not_lt_zero _)

end Fits

mutual

def fits : (room : Nat) → Step → Bool
  | room, mk i steps =>
    if (mk i steps).isGroup then fitsAll (room - 1) steps
    else 0 < room && (mk i steps).isPlain

def fitsAll : (room : Nat) → List Step → Bool
  | _, [] => true
  | room, step :: steps => fits room step && fitsAll room steps

end

mutual

theorem fits_iff (room : Nat) (step : Step) : step.fits room = true ↔ step.Fits room := by
  cases step with
  | mk i substeps =>
    rw [fits]
    cases hgroup : (mk i substeps).isGroup with
    | true =>
      rw [if_pos rfl, fitsAll_iff (room - 1) substeps]
      constructor
      . intro h depth leaf hreaches
        cases hreaches with
        | here hleaf => simp [hgroup] at hleaf
        | under _ hmem hreaches =>
          have := h _ hmem _ _ hreaches
          exact ⟨by omega, this.2⟩
      . intro h substep hmem depth leaf hreaches
        have := h _ _ (.under hgroup hmem hreaches)
        exact ⟨by omega, this.2⟩
    | false =>
      rw [if_neg Bool.false_ne_true, Bool.and_eq_true, decide_eq_true_eq]
      constructor
      . intro h depth leaf hreaches
        cases hreaches with
        | here _ => exact h
        | under hnested _ _ => simp [hgroup] at hnested
      . exact fun h => h 0 _ (.here hgroup)

theorem fitsAll_iff (room : Nat) (steps : List Step)
    : fitsAll room steps = true ↔ ∀ step ∈ steps, step.Fits room := by
  cases steps with
  | nil => exact iff_of_true rfl fun _ hmem => nomatch hmem
  | cons step steps =>
    rw [fitsAll, Bool.and_eq_true, fits_iff room step, fitsAll_iff room steps, List.forall_mem_cons]

end

instance (room : Nat) (step : Step) : Decidable (step.Fits room) :=
  decidable_of_iff _ (fits_iff room step)

end Step

theorem Score.steer_of_isPlain (s : Score) {step : Step} (h : step.isPlain = true)
    : s.steer step = s := by
  unfold Step.isPlain at h
  unfold steer
  cases hcommand : step.command with
  | setSequence => simp [hcommand] at h
  | reset => simp [hcommand] at h
  | _ => rfl

end Narrative
