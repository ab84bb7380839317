import Mathlib.Algebra.Order.BigOperators.Group.List
import Mathlib.Algebra.Order.Group.Nat
import Mathlib.Order.WellFoundedSet
import Narrative.Proofs.Renewal
import Narrative.Proofs.Steps

/-!
This module contains how sequences set one another going, and what the carrying out of a step costs.
The cost covers all that the step sets going in turn, as far as it does not go round in a circle.
-/

namespace Narrative

namespace Score

def stepsAt (s : Score) (index : Nat) : List Step :=
  ((s.sequences[index]?).map (·.steps)).getD []

/--
A leaf of a step of sequence `i` sets sequence `j` going.
-/
def SetsGoing (s : Score) (i j : Nat) : Prop :=
  j < s.sequences.length ∧ ∃ step ∈ s.stepsAt i, ∃ leaf ∈ step.leaves, leaf.starts? = some j

def LeadsBack (s : Score) (index : Nat) : Prop :=
  Relation.TransGen s.SetsGoing index index

def Circles (s : Score) (step : Step) : Prop :=
  ∃ index, step.starts? = some index ∧ s.LeadsBack index

noncomputable def circling (s : Score) (step : Step) : Nat :=
  open Classical in if s.Circles step then 1 else 0

/--
Sequence `i` sets sequence `j` going, which does not lead back to itself.
-/
def Ahead (s : Score) (j i : Nat) : Prop :=
  s.SetsGoing i j ∧ ¬s.LeadsBack j

variable (s : Score)

theorem stepsAt_eq_nil {index : Nat} (h : ¬index < s.sequences.length) : s.stepsAt index = [] := by
  unfold stepsAt
  rw [List.getElem?_eq_none (Nat.le_of_not_lt h)]
  rfl

theorem lt_of_mem_stepsAt {index : Nat} {step : Step} (h : step ∈ s.stepsAt index)
    : index < s.sequences.length := by
  by_contra hnot
  rw [s.stepsAt_eq_nil hnot] at h
  exact List.not_mem_nil h

theorem of_mem_stepsAt {s : Score} {P : Step → Prop}
    (h : ∀ sequence ∈ s.sequences, ∀ step ∈ sequence.steps, P step) {index : Nat} {step : Step}
    (hmem : step ∈ s.stepsAt index)
    : P step := by
  unfold stepsAt at hmem
  cases hget : s.sequences[index]? with
  | none =>
    rw [hget] at hmem
    exact nomatch hmem
  | some sequence =>
    rw [hget] at hmem
    exact h sequence (List.mem_of_getElem? hget) step hmem

theorem stepsAt_of_rewound {s start : Score}
    (h : s.sequences.map Sequence.rewind = start.sequences.map Sequence.rewind) {index : Nat}
    {sequence : Sequence} (hget : s.sequences[index]? = some sequence)
    : start.stepsAt index = sequence.steps := by
  have hsame : (start.sequences.map Sequence.rewind)[index]? = some sequence.rewind := by
    rw [← h, List.getElem?_map, hget]
    rfl
  rw [List.getElem?_map, Option.map_eq_some_iff] at hsame
  obtain ⟨authored, hauthored, hrewind⟩ := hsame
  unfold stepsAt
  rw [hauthored]
  exact congrArg (·.steps) hrewind

theorem ahead_wellFounded : WellFounded s.Ahead := by
  have hirrefl (i : Nat) : ¬Relation.TransGen s.Ahead i i := by
    intro hcircle
    obtain ⟨_, hahead, _⟩ := Relation.TransGen.head'_iff.mp hcircle
    apply hahead.2
    rw [LeadsBack, ← Relation.transGen_swap]
    exact Relation.TransGen.mono (fun _ _ h => h.1) i i hcircle
  have : Std.Irrefl (Relation.TransGen s.Ahead) := ⟨hirrefl⟩
  have : IsStrictOrder Nat (Relation.TransGen s.Ahead) := {}
  -- only the sequences that there are set one another going
  have hfinite := Set.wellFoundedOn_iff.mp
    ((Finset.range s.sequences.length).wellFoundedOn (r := Relation.TransGen s.Ahead))
  apply Subrelation.wf _ hfinite
  intro j i hahead
  obtain ⟨hlt, _, hmem, _⟩ := hahead.1
  refine ⟨.single hahead, ?_, ?_⟩
  . exact Finset.mem_coe.mpr (Finset.mem_range.mpr hlt)
  . exact Finset.mem_coe.mpr (Finset.mem_range.mpr (s.lt_of_mem_stepsAt hmem))

/--
What a leaf costs besides itself, if the steps of each sequence cost what it is `worth` together.
-/
noncomputable def outlay (worth : Nat → Nat) (leaf : Step) : Nat :=
  match leaf.starts? with
  | none => 0
  | some index => open Classical in if s.LeadsBack index then 0 else worth index

noncomputable def costBy (worth : Nat → Nat) (step : Step) : Nat :=
  step.size + (step.leaves.map (s.outlay worth)).sum

noncomputable def worth : Nat → Nat :=
  s.ahead_wellFounded.fix fun index worth =>
    ((s.stepsAt index).map
      (s.costBy fun other => open Classical in if h : s.Ahead other index then worth other h else 0)).sum

noncomputable def cost (step : Step) : Nat :=
  s.costBy s.worth step

/--
What all steps cost that there are.
-/
noncomputable def bonus : Nat :=
  ((List.range s.sequences.length).map s.worth).sum

theorem worth_eq_zero {index : Nat} (h : ¬index < s.sequences.length) : s.worth index = 0 := by
  rw [worth, WellFounded.fix_eq, s.stepsAt_eq_nil h]
  rfl

theorem worth_eq (index : Nat) : s.worth index = ((s.stepsAt index).map s.cost).sum := by
  rw [worth, WellFounded.fix_eq]
  congr 1
  apply List.map_congr_left
  intro step hstep
  unfold cost costBy
  congr 2
  apply List.map_congr_left
  intro leaf hleaf
  unfold outlay
  cases hstarts : leaf.starts? with
  | none => rfl
  | some other =>
    dsimp only
    by_cases hback : s.LeadsBack other
    . rw [if_pos hback, if_pos hback]
    . rw [if_neg hback, if_neg hback]
      by_cases hlt : other < s.sequences.length
      . rw [dif_pos ⟨⟨hlt, step, hstep, leaf, hleaf, hstarts⟩, hback⟩]
        rfl
      . rw [dif_neg fun h => hlt h.1.1, s.worth_eq_zero hlt]

theorem cost_le_worth {index : Nat} {step : Step} (h : step ∈ s.stepsAt index)
    : s.cost step ≤ s.worth index := by
  rw [worth_eq]
  exact List.le_sum_of_mem (List.mem_map_of_mem h)

theorem worth_le_bonus {index : Nat} (h : index < s.sequences.length)
    : s.worth index ≤ s.bonus :=
  List.le_sum_of_mem (List.mem_map_of_mem (List.mem_range.mpr h))

theorem cost_pos (step : Step) : 1 ≤ s.cost step := by
  unfold cost costBy
  rw [step.size_eq]
  omega

theorem cost_of_isGroup {step : Step} (h : step.isGroup = true)
    : s.cost step = (step.substeps.map s.cost).sum + 1 := by
  have houtlay (steps : List Step)
      : ((steps.flatMap Step.leaves).map (s.outlay s.worth)).sum + (steps.map Step.size).sum
        = (steps.map s.cost).sum := by
    induction steps with
    | nil => rfl
    | cons step steps ih =>
      rw [List.flatMap_cons, List.map_append, List.sum_append, List.map_cons, List.map_cons,
        List.sum_cons, List.sum_cons, ← ih, cost, costBy]
      omega
  rw [← houtlay, ← Step.leaves_of_isGroup h, cost, costBy, step.size_eq]
  omega

/--
A step of a sequence that is set going costs less than the step that does it, unless it goes round in
a circle.
-/
theorem cost_of_starts {leaf step : Step} (hgroup : leaf.isGroup = false) {index : Nat}
    (hstarts : leaf.starts? = some index) (h : step ∈ s.stepsAt index)
    : s.cost step + 1 ≤ s.cost leaf + s.bonus * s.circling leaf := by
  have hleaf : s.cost leaf = leaf.size + s.outlay s.worth leaf := by
    unfold cost costBy
    rw [Step.leaves_of_not_isGroup hgroup, List.map_singleton, List.sum_singleton]
  have hsize := leaf.size_eq
  have hcost := s.cost_le_worth h
  rw [hleaf, outlay, hstarts]
  by_cases hback : s.LeadsBack index
  . have hbonus := s.worth_le_bonus (s.lt_of_mem_stepsAt h)
    have hcircles : s.Circles leaf := ⟨index, hstarts, hback⟩
    rw [circling, if_pos hcircles]
    omega
  . dsimp only
    rw [if_neg hback]
    omega

end Score

end Narrative
