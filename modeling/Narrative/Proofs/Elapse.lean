import Narrative.Proofs.Arrival
import Narrative.Proofs.Due

/-!
This module contains what becomes of a step whose leaves are delayed, if the time goes on from one
due task to the next: every leaf arrives, at its own time.
-/

namespace Narrative

open Performance (maxDepth)
open Timeline (Leads weight)

theorem Timeline.Task.Loaded.size_pos {task : Timeline.Task} (h : task.Loaded) : 0 < task.size := by
  obtain ⟨step, sequenceId, haction, _⟩ := h
  rw [Timeline.Task.size_of_action haction, step.size_eq]
  omega

namespace Performance

variable {ρ : Type} [RandomSource ρ]

/--
Up to `rounds` times, go to the instant at which the next task is due and run what is due then.
-/
def elapse : (rounds : Nat) → Performance ρ → Performance ρ
  | 0, p => p
  | rounds + 1, p =>
    match p.score.nextDue? with
    | none => p
    | some due => elapse rounds (p.runDue (Clock.held due)).2

end Performance

namespace Score

/--
What has arrived since `start` and what is to arrive when the tasks fire is `all` together.
-/
structure Underway (start : Score) (all : List Arrival) (s : Score) : Prop where
  ordered : s.timeline.Ordered
  loaded : ∀ task ∈ s.timeline.tasks, task.Loaded
  account : ∃ recorded, s.events.toList = start.events.toList ++ recorded
    ∧ (recorded.map Event.arrival ++ s.timeline.tasks.flatMap (·.arrivals s.timing)).Perm all

variable {start s next : Score} {all atOnce later : List Arrival} {size : Nat}

namespace Underway

/--
A task is replaced by what it brings.
-/
theorem brought (h : Underway start all s) {task : Timeline.Task} {timeline : Timeline}
    (htask : (task :: timeline.tasks).Perm s.timeline.tasks) (hordered : timeline.Ordered)
    (hbrings : Brings atOnce later size { s with timeline } next)
    (harrivals : (atOnce ++ later).Perm (task.arrivals s.timing))
    : Underway start all next := by
  obtain ⟨recorded, hevents, haccount⟩ := h.account
  obtain ⟨more, hmore, hatOnce⟩ := hbrings.events
  obtain ⟨fresh, hleads, hfresh, hlater, _⟩ := hbrings.timeline
  constructor
  . exact hleads.ordered (.refl _) hordered
  . intro other hother
    rw [hleads.tasks, List.mem_append] at hother
    cases hother with
    | inl hkept => exact h.loaded other (htask.subset (List.mem_cons_of_mem _ hkept))
    | inr hnew => exact hfresh other hnew
  . refine ⟨recorded ++ more, ?_, ?_⟩
    . rw [hmore, hevents, List.append_assoc]
    . have hwaiting := htask.flatMap_right (·.arrivals s.timing)
      rw [List.flatMap_cons] at hwaiting
      rw [hleads.tasks, List.map_append, hatOnce, hbrings.timing, List.flatMap_append, hlater]
      apply List.Perm.trans _ haccount
      rw [List.append_assoc]
      apply List.Perm.append_left
      -- what the task was to bring has come by now, or waits behind the other tasks
      apply List.Perm.trans _ hwaiting
      apply List.Perm.trans _ (harrivals.append_right _)
      rw [List.append_assoc]
      apply List.Perm.append_left
      apply List.perm_append_comm

end Underway

theorem Brings.underway (h : Brings atOnce later size start s) (hnone : start.timeline.tasks = [])
    (hall : (atOnce ++ later).Perm all)
    : Underway start all s := by
  obtain ⟨recorded, hevents, hatOnce⟩ := h.events
  obtain ⟨fresh, hleads, hfresh, hlater, _⟩ := h.timeline
  have htasks : s.timeline.tasks = fresh := by rw [hleads.tasks, hnone, List.nil_append]
  constructor
  . apply hleads.ordered (List.Sublist.refl _)
    constructor <;> simp [hnone]
  . rw [htasks]
    exact hfresh
  . refine ⟨recorded, hevents, ?_⟩
    rw [htasks, hatOnce, h.timing, hlater]
    exact hall

end Score

namespace Performance

open Score (Underway)

variable {ρ : Type} [RandomSource ρ] {start : Score} {all : List Arrival} {p : Performance ρ}

theorem release_underway (h : Underway start all p.score) {task : Timeline.Task}
    (hmem : task ∈ p.score.timeline.tasks)
    : let after := (p.release (Clock.held task.due) task).score
      Underway start all after
        ∧ weight after.timeline.tasks < weight p.score.timeline.tasks
        ∧ ∃ fresh, Leads p.score.timeline (p.score.timeline.cancel task.id).2.tasks fresh
            after.timeline := by
  intro after
  obtain ⟨step, sequenceId, haction, hstep⟩ := h.loaded task hmem
  let spent : Performance ρ :=
    { p with score := { p.score with timeline := (p.score.timeline.cancel task.id).2 } }
  have hafter : after = (fire (Clock.held task.due) sequenceId step spent).score := by
    unfold after
    rw [release_dispatch _ haction]
  have hfire : Delivers task.due sequenceId (fire (Clock.held task.due) : Firing ρ) step :=
    fire_delivers hstep
  have hbrings := hfire spent
  rw [← hafter] at hbrings
  have hperm := h.ordered.cancel_perm hmem
  obtain ⟨fresh, hleads, _⟩ := hbrings.timeline
  refine ⟨h.brought hperm (h.ordered.cancelled task.id) hbrings ?_, ?_, fresh, hleads.tasks,
    hleads.ids, hleads.nextId⟩
  . rw [Timeline.Task.arrivals_of_action haction]
    apply Arrival.onPaths_perm
  . have hsize := Timeline.Task.size_of_action haction
    have hpos := step.size_eq
    have hle := hbrings.weight_le
    have hbefore : weight p.score.timeline.tasks
        = task.size + weight spent.score.timeline.tasks := by
      rw [← Timeline.weight_perm hperm]
      rfl
    omega

/--
The tasks that fire in one round are all due at the instant of the round, since none is due before.
-/
theorem fireDueBefore_underway {now : Instant} {mark : Nat} (limit : Nat)
    (h : Underway start all p.score) (hmark : mark ≤ p.score.timeline.nextId)
    (hnow : ∀ task ∈ p.score.timeline.tasks, task.isDue now mark = true → task.due = now)
    : let fired := p.fireDueBefore (Clock.held now) now mark limit
      Underway start all fired.2.score
        ∧ weight fired.2.score.timeline.tasks + fired.1.length ≤ weight p.score.timeline.tasks := by
  induction limit generalizing p with
  | zero => exact ⟨h, Nat.le_refl _⟩
  | succ limit ih =>
    cases hpop : p.score.timeline.popDue? now mark with
    | none =>
      rw [fireDueBefore_of_none hpop]
      exact ⟨h, Nat.le_refl _⟩
    | some popped =>
      obtain ⟨task, left⟩ := popped
      obtain ⟨hfirst, _⟩ := Timeline.popDue?_eq_some hpop
      have hmem := List.mem_filter.mp (Timeline.earliest?_mem hfirst)
      have hdue := hnow task hmem.1 hmem.2
      rw [fireDueBefore_of_some hpop]
      obtain ⟨hafter, hless, fresh, hleads⟩ := release_underway h hmem.1
      rw [hdue] at hafter hless hleads
      have hmarkAfter : mark ≤ (p.release (Clock.held now) task).score.timeline.nextId := by
        rw [hleads.nextId]
        omega
      have hnowAfter : ∀ other ∈ (p.release (Clock.held now) task).score.timeline.tasks,
          other.isDue now mark = true → other.due = now := by
        intro other hother hotherDue
        rw [hleads.tasks, List.mem_append] at hother
        cases hother with
        | inl hkept => exact hnow other (Timeline.mem_of_mem_cancel hkept) hotherDue
        | inr hnew => simp [hleads.not_due_of_mem_fresh hmark hnew] at hotherDue
      obtain ⟨hlast, hweight⟩ := ih hafter hmarkAfter hnowAfter
      refine ⟨hlast, ?_⟩
      simp only [List.length_cons]
      omega

omit [RandomSource ρ] in
theorem exists_due (h : Underway start all p.score) {due : Instant}
    (hdue : p.score.nextDue? = some due)
    : (∃ task ∈ p.score.timeline.tasks, task.isDue due p.score.timeline.nextId = true)
        ∧ ∀ task ∈ p.score.timeline.tasks, task.isDue due p.score.timeline.nextId = true →
            task.due = due := by
  obtain ⟨⟨first, hmem, hfirst⟩, hleast⟩ := Timeline.nextDue?_least hdue
  constructor
  . refine ⟨first, hmem, ?_⟩
    rw [h.ordered.isDue_nextId hmem, hfirst]
    exact decide_eq_true (Int.le_refl _)
  . intro task htask htaskDue
    have hle := hleast task htask
    rw [Instant.le_iff_rank_le] at hle
    rw [h.ordered.isDue_nextId htask, decide_eq_true_eq, Instant.le_iff_rank_le] at htaskDue
    rw [Instant.eq_iff_rank_eq]
    omega

theorem fireDueBefore_ne_nil {now : Instant} {mark limit : Nat} {task : Timeline.Task}
    (hmem : task ∈ p.score.timeline.tasks) (hdue : task.isDue now mark = true) (hlimit : 0 < limit)
    : (p.fireDueBefore (Clock.held now) now mark limit).1 ≠ [] := by
  obtain ⟨limit, rfl⟩ := Nat.exists_eq_add_one_of_ne_zero (Nat.pos_iff_ne_zero.mp hlimit)
  cases hpop : p.score.timeline.popDue? now mark with
  | none =>
    rw [Timeline.popDue?_eq_none_iff, List.filter_eq_nil_iff] at hpop
    exact absurd hdue (hpop task hmem)
  | some popped => simp [fireDueBefore_of_some hpop]

theorem runDue_underway (h : Underway start all p.score) {due : Instant}
    (hdue : p.score.nextDue? = some due)
    : let after := (p.runDue (Clock.held due)).2.score
      Underway start all after
        ∧ weight after.timeline.tasks < weight p.score.timeline.tasks := by
  intro after
  obtain ⟨⟨task, hmem, htask⟩, hall⟩ := exists_due h hdue
  have hfired := fireDueBefore_ne_nil hmem htask (List.length_pos_of_mem hmem)
  have hlength := List.length_pos_iff.mpr hfired
  obtain ⟨hafter, hweight⟩ := fireDueBefore_underway p.score.timeline.size h (Nat.le_refl _) hall
  refine ⟨hafter, ?_⟩
  apply Nat.lt_of_lt_of_le _ hweight
  exact Nat.lt_add_of_pos_right hlength

theorem elapse_underway (h : Underway start all p.score) {rounds : Nat}
    (hrounds : weight p.score.timeline.tasks ≤ rounds)
    : Underway start all (p.elapse rounds).score
        ∧ (p.elapse rounds).score.timeline.tasks = [] := by
  induction rounds generalizing p with
  | zero =>
    refine ⟨h, ?_⟩
    cases htasks : p.score.timeline.tasks with
    | nil => exact htasks
    | cons task tasks =>
      -- any task that waits weighs something
      have hpos := (h.loaded task (by simp [htasks])).size_pos
      rw [htasks, weight, List.map_cons, List.sum_cons] at hrounds
      omega
  | succ rounds ih =>
    unfold elapse
    split
    . next hnone =>
      exact ⟨h, Timeline.nextDue?_eq_none_iff.mp hnone⟩
    . next due hdue =>
      obtain ⟨hafter, hless⟩ := runDue_underway h hdue
      apply ih hafter
      omega

/--
Every leaf of a step arrives once, after all the delays on the way from the step to it: when the step
is carried out at `t` if there are none, and otherwise as the time goes on. A step of size `n` leaves
nothing to do after `n` rounds.
-/
theorem elapse_delivers (t : Instant) (sequenceId : String) {step : Step}
    (hstep : step.Fits maxDepth) {p : Performance ρ} (hnone : p.score.timeline.tasks = [])
    : let fired := p.fire (Clock.held t) sequenceId step
      let arrival := Arrival.along p.score.timing sequenceId t step
      (∃ recorded, fired.score.events.toList = p.score.events.toList ++ recorded
          ∧ recorded.map Event.arrival = (step.paths.filter Step.isPrompt).map arrival)
        ∧ ∀ rounds, step.size ≤ rounds →
            let final := fired.elapse rounds
            final.score.timeline.tasks = []
              ∧ ∃ recorded, final.score.events.toList = p.score.events.toList ++ recorded
                  ∧ (recorded.map Event.arrival).Perm (step.paths.map arrival) := by
  intro fired arrival
  have hfire : Delivers t sequenceId (fire (Clock.held t) : Firing ρ) step := fire_delivers hstep
  have hbrings := hfire p
  have hall := Arrival.onPaths_perm p.score.timing sequenceId t step
  have hunderway := hbrings.underway hnone hall
  refine ⟨hbrings.events, ?_⟩
  intro rounds hrounds final
  have hweight : weight fired.score.timeline.tasks ≤ rounds := by
    have hle := hbrings.weight_le
    rw [hnone] at hle
    apply Nat.le_trans hle
    simp only [weight, List.map_nil, List.sum_nil]
    omega
  obtain ⟨⟨_, _, recorded, hevents, hperm⟩, htasks⟩ := elapse_underway hunderway hweight
  refine ⟨htasks, recorded, hevents, ?_⟩
  rw [htasks, List.flatMap_nil, List.append_nil] at hperm
  unfold Arrival.onPaths at hperm
  rw [List.filter_true] at hperm
  exact hperm

theorem elapse_delivers_group
    : let a : Step := .mk { id := 1, content := "a" } []
      let b : Step := .mk { id := 2, content := "b", delay := 3.0 } []
      let c : Step := .mk { id := 4, content := "c" } []
      let d : Step := .mk { id := 5, content := "d", delay := 1.0 } []
      let inner : Step := .mk { id := 3, command := .group, delay := 2.0 } [c, d]
      let outer : Step := .mk { id := 0, command := .group } [a, b, inner]
      let p : Performance SeededSource := ⟨Score.empty default, .ofSeed 0⟩
      let reach := p.score.timing.reach
      outer.Fits maxDepth
        ∧ ∃ final, final = (p.fire (Clock.held default) "main" outer).elapse 6
            ∧ final.score.timeline.tasks = []
            ∧ (final.score.events.toList.map Event.arrival).Perm
                [⟨"main", a, reach default a⟩, ⟨"main", b, reach default b⟩,
                  ⟨"main", c, reach (reach default inner) c⟩,
                  ⟨"main", d, reach (reach default inner) d⟩] := by
  intro a b c d inner outer p reach
  have hfits : outer.Fits maxDepth := by decide
  have hdelivers := elapse_delivers default "main" hfits (p := p) rfl
  have hpaths : outer.paths = [[a], [b], [inner, c], [inner, d]] := rfl
  obtain ⟨htasks, recorded, hevents, hperm⟩ := hdelivers.2 6 (by decide)
  have hnone : p.score.events.toList = [] := rfl
  rw [hnone, List.nil_append] at hevents
  subst hevents
  rw [hpaths] at hperm
  simp only [List.map_cons, List.map_nil, Arrival.along_cons, Arrival.along_nil] at hperm
  exact ⟨hfits, _, rfl, htasks, hperm⟩

end Performance

end Narrative
