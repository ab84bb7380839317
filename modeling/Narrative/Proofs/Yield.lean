import Narrative.Proofs.Frame
import Narrative.Proofs.Instants
import Narrative.Proofs.Steps
import Narrative.Proofs.Tick

/-!
This module contains what it comes to when plain steps are carried out: every leaf of theirs is
recorded at once or waits, once each, and nothing else changes but the scene.
-/

namespace Narrative

open Performance (maxDepth)

namespace Timeline

namespace Task

def leaves (task : Task) : List Step :=
  match task.action with
  | .dispatch step _ => step.leaves
  | .tick => []

def size (task : Task) : Nat :=
  match task.action with
  | .dispatch step _ => step.size
  | .tick => 0

/--
The task is due some day, and there is room for the step that waits.
-/
structure Sound (task : Task) : Prop where
  due : task.due ≤ Instant.last
  fits {step : Step} {sequenceId : String} :
    task.action = .dispatch step sequenceId → step.Fits maxDepth

theorem leaves_of_action {task : Task} {step : Step} {sequenceId : String}
    (h : task.action = .dispatch step sequenceId)
    : task.leaves = step.leaves := by
  unfold leaves
  rw [h]

theorem size_of_action {task : Task} {step : Step} {sequenceId : String}
    (h : task.action = .dispatch step sequenceId)
    : task.size = step.size := by
  unfold size
  rw [h]

theorem leaves_of_not_isDispatch {task : Task} (h : ¬task.action.isDispatch = true)
    : task.leaves = [] := by
  unfold leaves
  cases haction : task.action with
  | dispatch => simp [haction, Action.isDispatch] at h
  | tick => rfl

theorem size_of_not_isDispatch {task : Task} (h : ¬task.action.isDispatch = true)
    : task.size = 0 := by
  unfold size
  cases haction : task.action with
  | dispatch => simp [haction, Action.isDispatch] at h
  | tick => rfl

end Task

/--
The leaves that are still to be recorded when the tasks have fired.
-/
def owed (tasks : List Task) : List Step :=
  tasks.flatMap Task.leaves

def weight (tasks : List Task) : Nat :=
  (tasks.map Task.size).sum

variable {tasks others : List Task}

theorem owed_append (tasks others : List Task) : owed (tasks ++ others) = owed tasks ++ owed others :=
  List.flatMap_append

theorem weight_append (tasks others : List Task)
    : weight (tasks ++ others) = weight tasks + weight others := by
  unfold weight
  rw [List.map_append, List.sum_append]

theorem owed_perm (h : tasks.Perm others) : (owed tasks).Perm (owed others) :=
  h.flatMap_right _

theorem weight_perm (h : tasks.Perm others) : weight tasks = weight others :=
  (h.map _).sum_nat

theorem owed_filter_isDispatch (tasks : List Task)
    : owed (tasks.filter (·.action.isDispatch)) = owed tasks := by
  induction tasks with
  | nil => rfl
  | cons task tasks ih =>
    unfold owed at *
    rw [List.filter_cons, List.flatMap_cons, ← ih]
    split
    . rw [List.flatMap_cons]
    . next htick => rw [Task.leaves_of_not_isDispatch htick, List.nil_append]

theorem weight_filter_isDispatch (tasks : List Task)
    : weight (tasks.filter (·.action.isDispatch)) = weight tasks := by
  induction tasks with
  | nil => rfl
  | cons task tasks ih =>
    unfold weight at *
    rw [List.filter_cons, List.map_cons, List.sum_cons, ← ih]
    split
    . rw [List.map_cons, List.sum_cons]
    . next htick => rw [Task.size_of_not_isDispatch htick, Nat.zero_add]

end Timeline

open Timeline (Leads owed weight)

namespace Score

/--
On the way from `start` to `s` the steps `leaves` were recorded, or wait in tasks which weigh `size` at
most.
-/
structure Yields (leaves : List Step) (size : Nat) (start s : Score) : Prop where
  frame : ∃ characters world delayEnd timeline events eventCount,
    s = { start with characters, world, delayEnd, timeline, events, eventCount }
  account : ∃ fresh recorded,
    Leads start.timeline start.timeline.tasks fresh s.timeline
      ∧ (∀ task ∈ fresh, task.Sound)
      ∧ s.events.toList = start.events.toList ++ recorded
      ∧ (recorded.map (·.step) ++ owed fresh).Perm leaves
      ∧ weight fresh ≤ size

namespace Yields

variable {start mid s : Score} {leaves more : List Step} {size others : Nat}

theorem refl (s : Score) : Yields [] 0 s s where
  frame := ⟨_, _, _, _, _, _, rfl⟩
  account := ⟨[], [], Leads.refl _, by simp, by simp, .refl _, Nat.le_refl _⟩

theorem mono (h : Yields leaves size start s) (hsize : size ≤ others)
    : Yields leaves others start s := by
  obtain ⟨fresh, recorded, hleads, hsound, hevents, hperm, hweight⟩ := h.account
  exact ⟨h.frame, fresh, recorded, hleads, hsound, hevents, hperm, Nat.le_trans hweight hsize⟩

theorem trans (h : Yields leaves size start mid) (hlast : Yields more others mid s)
    : Yields (leaves ++ more) (size + others) start s := by
  obtain ⟨fresh, recorded, hleads, hsound, hevents, hperm, hweight⟩ := h.account
  obtain ⟨fresh', recorded', hleads', hsound', hevents', hperm', hweight'⟩ := hlast.account
  refine ⟨?_, fresh ++ fresh', recorded ++ recorded', hleads.trans hleads', ?_, ?_, ?_, ?_⟩
  . obtain ⟨_, _, _, _, _, _, hmid⟩ := h.frame
    obtain ⟨_, _, _, _, _, _, hs⟩ := hlast.frame
    rw [hs, hmid]
    exact ⟨_, _, _, _, _, _, rfl⟩
  . intro task hmem
    rw [List.mem_append] at hmem
    exact hmem.elim (hsound task) (hsound' task)
  . rw [hevents', hevents, List.append_assoc]
  . rw [List.map_append, Timeline.owed_append, List.append_assoc]
    apply List.Perm.trans _ (hperm.append hperm')
    rw [List.append_assoc]
    exact (List.perm_append_comm_assoc _ _ _).append_left _
  . rw [Timeline.weight_append]
    omega

theorem account_perm (h : Yields leaves size start s) {written given : List Step}
    (hgiven : (written ++ start.events.toList.map (·.step) ++ owed start.timeline.tasks).Perm given)
    : (written ++ s.events.toList.map (·.step) ++ owed s.timeline.tasks).Perm
        (given ++ leaves) := by
  obtain ⟨fresh, recorded, hleads, _, hevents, hperm, _⟩ := h.account
  apply List.Perm.trans _ (hgiven.append hperm)
  rw [hevents, hleads.tasks, List.map_append, Timeline.owed_append]
  simp only [List.append_assoc]
  exact ((List.perm_append_comm_assoc _ _ _).append_left _).append_left _

theorem weight_le (h : Yields leaves size start s)
    : weight s.timeline.tasks ≤ weight start.timeline.tasks + size := by
  obtain ⟨fresh, _, hleads, _, _, _, hweight⟩ := h.account
  rw [hleads.tasks, Timeline.weight_append]
  omega

theorem sound (h : Yields leaves size start s) (hstart : ∀ task ∈ start.timeline.tasks, task.Sound)
    : ∀ task ∈ s.timeline.tasks, task.Sound := by
  obtain ⟨fresh, _, hleads, hsound, _⟩ := h.account
  intro task hmem
  rw [hleads.tasks, List.mem_append] at hmem
  exact hmem.elim (hstart task) (hsound task)

end Yields

end Score

namespace Performance

open Score (Yields)

variable {ρ : Type} [RandomSource ρ] {clock : Clock ρ}

omit [RandomSource ρ] in
theorem record_yields (sequenceId : String) (step : Step) (p : Performance ρ)
    : Yields [step] 0 p.score (p.record clock sequenceId step).score where
  frame := ⟨_, _, _, _, _, _, rfl⟩
  account := by
    refine ⟨[], [⟨p.score.eventCount + 1, (p.read clock).1, sequenceId, step⟩], Leads.refl _, ?_, ?_,
      .refl _, Nat.le_refl _⟩
    . exact fun _ hmem => nomatch hmem
    . exact Array.toList_push

section

variable (hclock : ∀ source, (clock.read source).1 ≤ Instant.last)
include hclock

omit [RandomSource ρ] in
theorem postpone_yields (sequenceId : String) {step : Step} (hstep : step.Fits maxDepth)
    (p : Performance ρ)
    : Yields step.leaves step.size p.score (p.postpone clock sequenceId step).score where
  frame := ⟨_, _, _, _, _, _, rfl⟩
  account := by
    refine ⟨_, [], Leads.schedule _ _ _, ?_, (List.append_nil _).symm, ?_, ?_⟩
    . intro task hmem
      rw [List.mem_singleton.mp hmem]
      exact ⟨Instant.after_le_last _ (hclock _), fun haction => (Action.dispatch.inj haction).1 ▸ hstep⟩
    . simp [owed, Timeline.Task.leaves]
    . simp [weight, Timeline.Task.size]

omit [RandomSource ρ] in
theorem execute_yields (sequenceId : String) {step : Step} (hstep : step.Fits maxDepth)
    {fire : Firing ρ} {p : Performance ρ}
    (hfire : Yields step.leaves (step.size - 1) p.score (fire sequenceId step p).score)
    : Yields step.leaves step.size p.score (execute clock fire sequenceId step p).score := by
  unfold execute
  split
  . exact postpone_yields hclock sequenceId hstep p
  . exact hfire.mono (Nat.sub_le _ _)

omit [RandomSource ρ] in
theorem foldl_execute_yields (sequenceId : String) {steps : List Step}
    (hsteps : ∀ step ∈ steps, step.Fits maxDepth) {fire : Firing ρ}
    (hfire : ∀ step ∈ steps, ∀ p,
      Yields step.leaves (step.size - 1) p.score (fire sequenceId step p).score)
    (p : Performance ρ)
    : Yields (steps.flatMap Step.leaves) ((steps.map Step.size).sum) p.score
        (steps.foldl (fun p step => execute clock fire sequenceId step p) p).score := by
  induction steps generalizing p with
  | nil => exact .refl _
  | cons step steps ih =>
    rw [List.forall_mem_cons] at hsteps hfire
    rw [List.flatMap_cons, List.map_cons, List.sum_cons]
    exact (execute_yields hclock sequenceId hsteps.1 (hfire.1 p)).trans (ih hsteps.2 hfire.2 _)

theorem dispatch_yields {room : Nat} (hroom : room ≤ maxDepth) (sequenceId : String) {step : Step}
    (hstep : step.Fits room) (p : Performance ρ)
    : Yields step.leaves (step.size - 1) p.score (dispatch clock room sequenceId step p).score := by
  induction room generalizing step p with
  | zero =>
    rw [hstep.leaves_eq_nil]
    exact (Yields.refl _).mono (Nat.zero_le _)
  | succ room ih =>
    cases hgroup : step.isGroup with
    | true =>
      rw [dispatch_group _ _ _ _ _ hgroup, Step.leaves_of_isGroup hgroup, step.size_eq,
        Nat.add_sub_cancel]
      have hsubsteps (substep : Step) (hmem : substep ∈ step.substeps) : substep.Fits room :=
        hstep.substep hgroup hmem
      apply foldl_execute_yields hclock
      . exact fun substep hmem => (hsubsteps substep hmem).mono (Nat.le_of_succ_le hroom)
      . exact fun substep hmem p => ih (Nat.le_of_succ_le hroom) (hsubsteps substep hmem) p
    | false =>
      have hplain := (hstep _ _ (.here hgroup)).2
      rw [dispatch_single _ _ _ _ _ hgroup, Step.starts?_of_isPlain hplain,
        Step.leaves_of_not_isGroup hgroup]
      unfold carryOut
      dsimp only
      rw [Score.steer_of_isPlain _ hplain]
      exact (record_yields sequenceId step p).mono (Nat.zero_le _)

theorem fire_yields (sequenceId : String) {step : Step} (hstep : step.Fits maxDepth)
    (p : Performance ρ)
    : Yields step.leaves (step.size - 1) p.score (fire clock sequenceId step p).score :=
  dispatch_yields hclock (Nat.le_refl _) sequenceId hstep p

end

end Performance

end Narrative
