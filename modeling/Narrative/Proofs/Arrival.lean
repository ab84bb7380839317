import Narrative.Proofs.Yield

/-!
This module contains when the leaves of a step arrive: a delay on the way down to a leaf counts from
the instant at which the group around it is carried out.
-/

namespace Narrative

namespace Step

mutual

/--
The ways that lead from a step down to its leaves, through groups only and in document order. A way
has the steps that are passed below the first one, and the leaf as the last of them.
-/
def paths : Step → List (List Step)
  | mk i steps => if (mk i steps).isGroup then pathsOfAll steps else [[]]

def pathsOfAll : List Step → List (List Step)
  | [] => []
  | step :: steps => (paths step).map (step :: ·) ++ pathsOfAll steps

end

def isPrompt (path : List Step) : Bool :=
  path.all fun step => !step.isDelayed

theorem isPrompt_cons (step : Step) (path : List Step)
    : isPrompt (step :: path) = (!step.isDelayed && isPrompt path) := by
  apply List.all_cons

theorem pathsOfAll_eq (steps : List Step)
    : pathsOfAll steps = steps.flatMap fun step => step.paths.map (step :: ·) := by
  induction steps with
  | nil => rfl
  | cons step steps ih => rw [pathsOfAll, ih, List.flatMap_cons]

theorem paths_of_isGroup {step : Step} (h : step.isGroup = true)
    : step.paths = step.substeps.flatMap fun substep => substep.paths.map (substep :: ·) := by
  cases step with
  | mk i substeps =>
    rw [paths, if_pos h, pathsOfAll_eq]
    rfl

theorem paths_of_not_isGroup {step : Step} (h : step.isGroup = false) : step.paths = [[]] := by
  cases step with
  | mk i substeps => rw [paths, if_neg (Bool.eq_false_iff.mp h)]

mutual

theorem map_getLastD_paths (step : Step) : step.paths.map (·.getLastD step) = step.leaves := by
  cases step with
  | mk i substeps =>
    rw [paths, leaves]
    split
    . apply map_getLastD_pathsOfAll
    . rfl

theorem map_getLastD_pathsOfAll (steps : List Step) (step : Step)
    : (pathsOfAll steps).map (·.getLastD step) = leavesOfAll steps := by
  cases steps with
  | nil => rfl
  | cons substep steps =>
    rw [pathsOfAll, leavesOfAll, List.map_append, List.map_map, map_getLastD_pathsOfAll steps,
      ← map_getLastD_paths substep]
    simp only [Function.comp_def, List.getLastD_cons]

end

theorem Fits.paths_eq_nil {step : Step} (h : step.Fits 0) : step.paths = [] := by
  rw [← List.map_eq_nil_iff (f := (·.getLastD step)), map_getLastD_paths, h.leaves_eq_nil]

end Step

/--
The instant at which a step arrives, if what leads to it arrives at `t`.
-/
def Timing.reach (timing : Timing) (t : Instant) (step : Step) : Instant :=
  if step.isDelayed then t.after (timing.delayMs step.instruction.delay) else t

structure Arrival where
  sequenceId : String
  step : Step
  instant : Instant

def Event.arrival (event : Event) : Arrival :=
  ⟨event.sequenceId, event.step, event.occurredAt⟩

namespace Arrival

section

variable (timing : Timing) (sequenceId : String) (t : Instant) (step : Step)

/--
What is at the end of a path arrives when all the delays on the path are over, one after the other.
-/
def along (path : List Step) : Arrival :=
  ⟨sequenceId, path.getLastD step, path.foldl timing.reach t⟩

/--
What is carried out with the step at `t`, on the paths which `f` admits.
-/
def onPaths (f : List Step → Bool) : List Arrival :=
  (step.paths.filter f).map (along timing sequenceId t step)

/--
The same for a step under a group that is carried out at `t`. The paths are those from the group.
-/
def under (f : List Step → Bool) : List Arrival :=
  onPaths timing sequenceId (timing.reach t step) step fun path => f (step :: path)

theorem along_nil : along timing sequenceId t step [] = ⟨sequenceId, step, t⟩ := by
  rfl

theorem along_cons (substep : Step) (path : List Step)
    : along timing sequenceId t step (substep :: path)
        =
      along timing sequenceId (timing.reach t substep) substep path := by
  unfold along
  rw [List.getLastD_cons, List.foldl_cons]

theorem onPaths_of_isGroup (f : List Step → Bool) (h : step.isGroup = true)
    : onPaths timing sequenceId t step f
        =
      step.substeps.flatMap fun substep => under timing sequenceId t substep f := by
  unfold under onPaths
  rw [Step.paths_of_isGroup h, List.filter_flatMap, List.map_flatMap]
  simp only [List.filter_map, List.map_map, Function.comp_def, along_cons]

theorem onPaths_of_not_isGroup (f : List Step → Bool) (h : step.isGroup = false)
    : onPaths timing sequenceId t step f = if f [] then [⟨sequenceId, step, t⟩] else [] := by
  unfold onPaths
  rw [Step.paths_of_not_isGroup h]
  split
  . next hf => simp [hf, along]
  . next hf => simp [hf]

theorem under_of_isDelayed (f : List Step → Bool) (h : step.isDelayed = true)
    : under timing sequenceId t step f
        =
      onPaths timing sequenceId (t.after (timing.delayMs step.instruction.delay)) step fun path =>
        f (step :: path) := by
  unfold under Timing.reach
  rw [if_pos h]

theorem under_of_not_isDelayed (f : List Step → Bool) (h : step.isDelayed = false)
    : under timing sequenceId t step f
        =
      onPaths timing sequenceId t step fun path => f (step :: path) := by
  unfold under Timing.reach
  rw [if_neg (Bool.eq_false_iff.mp h)]

theorem onPaths_perm
    : (onPaths timing sequenceId t step Step.isPrompt
          ++ onPaths timing sequenceId t step (!Step.isPrompt ·)).Perm
        (onPaths timing sequenceId t step fun _ => true) := by
  unfold onPaths
  rw [← List.map_append, List.filter_true]
  apply List.Perm.map
  apply List.filter_append_perm

end

end Arrival

open Performance (maxDepth)

namespace Timeline.Task

/--
A step waits for which there is room.
-/
def Loaded (task : Task) : Prop :=
  ∃ step sequenceId, task.action = .dispatch step sequenceId ∧ step.Fits maxDepth

/--
What arrives when the task fires as soon as it is due, at once or later.
-/
def arrivals (timing : Timing) (task : Task) : List Arrival :=
  match task.action with
  | .dispatch step sequenceId => Arrival.onPaths timing sequenceId task.due step fun _ => true
  | .tick => []

theorem arrivals_of_action {timing : Timing} {task : Task} {step : Step} {sequenceId : String}
    (h : task.action = .dispatch step sequenceId)
    : task.arrivals timing = Arrival.onPaths timing sequenceId task.due step fun _ => true := by
  unfold arrivals
  rw [h]

end Timeline.Task

open Timeline (Leads weight)

namespace Score

/--
On the way from `start` to `s`, `atOnce` arrived, and `later` is to arrive when the tasks fire that
were scheduled. They weigh `size` at most.
-/
structure Brings (atOnce later : List Arrival) (size : Nat) (start s : Score) : Prop where
  timing : s.timing = start.timing
  events : ∃ recorded, s.events.toList = start.events.toList ++ recorded
    ∧ recorded.map Event.arrival = atOnce
  timeline : ∃ fresh, Leads start.timeline start.timeline.tasks fresh s.timeline
    ∧ (∀ task ∈ fresh, task.Loaded) ∧ fresh.flatMap (·.arrivals start.timing) = later
    ∧ weight fresh ≤ size

namespace Brings

variable {start mid s : Score} {atOnce later moreAtOnce moreLater : List Arrival}
variable {size others : Nat}

theorem refl (s : Score) : Brings [] [] 0 s s where
  timing := rfl
  events := ⟨[], by simp, rfl⟩
  timeline := ⟨[], Leads.refl _, by simp, rfl, Nat.le_refl _⟩

theorem mono (h : Brings atOnce later size start s) (hsize : size ≤ others)
    : Brings atOnce later others start s := by
  obtain ⟨fresh, hleads, hloaded, hlater, hweight⟩ := h.timeline
  exact ⟨h.timing, h.events, fresh, hleads, hloaded, hlater, Nat.le_trans hweight hsize⟩

theorem trans (h : Brings atOnce later size start mid)
    (hlast : Brings moreAtOnce moreLater others mid s)
    : Brings (atOnce ++ moreAtOnce) (later ++ moreLater) (size + others) start s where
  timing := hlast.timing.trans h.timing
  events := by
    obtain ⟨recorded, hevents, hatOnce⟩ := h.events
    obtain ⟨more, hmore, hmoreAtOnce⟩ := hlast.events
    refine ⟨recorded ++ more, ?_, ?_⟩
    . rw [hmore, hevents, List.append_assoc]
    . rw [List.map_append, hatOnce, hmoreAtOnce]
  timeline := by
    obtain ⟨fresh, hleads, hloaded, hlater, hweight⟩ := h.timeline
    obtain ⟨more, hmore, hmoreLoaded, hmoreLater, hmoreWeight⟩ := hlast.timeline
    refine ⟨fresh ++ more, hleads.trans hmore, ?_, ?_, ?_⟩
    . intro task hmem
      rw [List.mem_append] at hmem
      exact hmem.elim (hloaded task) (hmoreLoaded task)
    . rw [List.flatMap_append, hlater, ← hmoreLater, h.timing]
    . rw [Timeline.weight_append]
      omega

theorem weight_le (h : Brings atOnce later size start s)
    : weight s.timeline.tasks ≤ weight start.timeline.tasks + size := by
  obtain ⟨fresh, hleads, _, _, hweight⟩ := h.timeline
  rw [hleads.tasks, Timeline.weight_append]
  omega

end Brings

end Score

namespace Performance

open Score (Brings)

variable {ρ : Type} [RandomSource ρ] (t : Instant) (sequenceId : String)

omit [RandomSource ρ] in
theorem record_brings (step : Step) (p : Performance ρ)
    : Brings [⟨sequenceId, step, t⟩] [] 0 p.score
        (p.record (Clock.held t) sequenceId step).score where
  timing := rfl
  events := ⟨[⟨p.score.eventCount + 1, t, sequenceId, step⟩], Array.toList_push, rfl⟩
  timeline := ⟨[], Leads.refl _, by simp, rfl, Nat.le_refl _⟩

omit [RandomSource ρ] in
theorem postpone_brings {step : Step} (hstep : step.Fits maxDepth) (p : Performance ρ)
    : let due := t.after (p.score.timing.delayMs step.instruction.delay)
      Brings [] (Arrival.onPaths p.score.timing sequenceId due step fun _ => true) step.size p.score
        (p.postpone (Clock.held t) sequenceId step).score where
  timing := rfl
  events := ⟨[], (List.append_nil _).symm, rfl⟩
  timeline := by
    refine ⟨_, Leads.schedule _ _ _, ?_, ?_, ?_⟩
    . intro task hmem
      rw [List.mem_singleton.mp hmem]
      exact ⟨step, sequenceId, rfl, hstep⟩
    . rw [List.flatMap_singleton]
      rfl
    . simp [weight, Timeline.Task.size]

/--
Whatever is on the paths of a step is brought when `fire` carries it out at `t`: at once if there is no
delay on the path.
-/
def Delivers (fire : Firing ρ) (step : Step) : Prop :=
  ∀ p : Performance ρ,
    Brings (Arrival.onPaths p.score.timing sequenceId t step Step.isPrompt)
      (Arrival.onPaths p.score.timing sequenceId t step (!Step.isPrompt ·)) (step.size - 1) p.score
      (fire sequenceId step p).score

variable {t sequenceId} {fire : Firing ρ}

omit [RandomSource ρ] in
theorem Delivers.execute {step : Step} (hfire : Delivers t sequenceId fire step)
    (hstep : step.Fits maxDepth) (p : Performance ρ)
    : Brings (Arrival.under p.score.timing sequenceId t step Step.isPrompt)
        (Arrival.under p.score.timing sequenceId t step (!Step.isPrompt ·)) step.size p.score
        (execute (Clock.held t) fire sequenceId step p).score := by
  unfold Performance.execute
  split
  . next hdelayed =>
    rw [Arrival.under_of_isDelayed _ _ _ _ _ hdelayed, Arrival.under_of_isDelayed _ _ _ _ _ hdelayed]
    have hpostponed := postpone_brings t sequenceId hstep p
    simp only [Step.isPrompt_cons, hdelayed, Bool.not_true, Bool.false_and, Bool.not_false]
    simpa [Arrival.onPaths] using hpostponed
  . next hprompt =>
    rw [Bool.not_eq_true] at hprompt
    rw [Arrival.under_of_not_isDelayed _ _ _ _ _ hprompt,
      Arrival.under_of_not_isDelayed _ _ _ _ _ hprompt]
    simp only [Step.isPrompt_cons, hprompt, Bool.not_false, Bool.true_and]
    apply (hfire p).mono (Nat.sub_le _ _)

omit [RandomSource ρ] in
theorem Delivers.foldl_execute {steps : List Step} (hsteps : ∀ step ∈ steps, step.Fits maxDepth)
    (hfire : ∀ step ∈ steps, Delivers t sequenceId fire step) (p : Performance ρ)
    : Brings (steps.flatMap fun step => Arrival.under p.score.timing sequenceId t step Step.isPrompt)
        (steps.flatMap fun step => Arrival.under p.score.timing sequenceId t step (!Step.isPrompt ·))
        ((steps.map Step.size).sum) p.score
        (steps.foldl
          (fun p step => Performance.execute (Clock.held t) fire sequenceId step p) p).score := by
  induction steps generalizing p with
  | nil => apply Brings.refl
  | cons step steps ih =>
    rw [List.forall_mem_cons] at hsteps hfire
    rw [List.flatMap_cons, List.flatMap_cons, List.map_cons, List.sum_cons]
    have hhere := hfire.1.execute hsteps.1 p
    -- the substeps share the instant of the group and its timing
    have hrest := ih hsteps.2 hfire.2 (Performance.execute (Clock.held t) fire sequenceId step p)
    rw [hhere.timing] at hrest
    apply hhere.trans hrest

theorem dispatch_delivers {room : Nat} (hroom : room ≤ maxDepth) {step : Step}
    (hstep : step.Fits room)
    : Delivers t sequenceId (dispatch (Clock.held t) room : Firing ρ) step := by
  induction room generalizing step with
  | zero =>
    intro p
    unfold Arrival.onPaths
    rw [hstep.paths_eq_nil]
    apply (Brings.refl _).mono (Nat.zero_le _)
  | succ room ih =>
    intro p
    cases hgroup : step.isGroup with
    | true =>
      have hsubsteps (substep : Step) (hmem : substep ∈ step.substeps) : substep.Fits room :=
        hstep.substep hgroup hmem
      rw [dispatch_group _ _ _ _ _ hgroup, Arrival.onPaths_of_isGroup _ _ _ _ _ hgroup,
        Arrival.onPaths_of_isGroup _ _ _ _ _ hgroup, step.size_eq, Nat.add_sub_cancel]
      apply Delivers.foldl_execute
      . exact fun substep hmem => (hsubsteps substep hmem).mono (Nat.le_of_succ_le hroom)
      . exact fun substep hmem => ih (Nat.le_of_succ_le hroom) (hsubsteps substep hmem)
    | false =>
      have hplain := (hstep _ _ (.here hgroup)).2
      rw [dispatch_single _ _ _ _ _ hgroup, Step.starts?_of_isPlain hplain,
        Arrival.onPaths_of_not_isGroup _ _ _ _ _ hgroup,
        Arrival.onPaths_of_not_isGroup _ _ _ _ _ hgroup]
      unfold carryOut
      dsimp only
      rw [Score.steer_of_isPlain _ hplain]
      apply (record_brings t sequenceId step p).mono (Nat.zero_le _)

theorem fire_delivers {step : Step} (hstep : step.Fits maxDepth)
    : Delivers t sequenceId (Performance.fire (Clock.held t) : Firing ρ) step := by
  apply dispatch_delivers (Nat.le_refl _) hstep

end Performance

end Narrative
