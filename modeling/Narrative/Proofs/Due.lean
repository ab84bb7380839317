import Narrative.Proofs.Tick

/-!
This module contains what happens to the tasks that are due: each of them fires once, in order, and
nothing that they schedule fires along with them.
-/

namespace Narrative

open Timeline (Leads)

namespace Performance

variable {ρ : Type} [RandomSource ρ]

/--
What becomes of a task that is due: it leaves the timeline, and only then it fires, so whatever it
schedules is still there afterwards.
-/
def release (clock : Clock ρ) (p : Performance ρ) (task : Timeline.Task) : Performance ρ :=
  let timeline := (p.score.timeline.cancel task.id).2
  fireTask clock task { p with score := { p.score with timeline } }

theorem release_dispatch (clock : Clock ρ) {task : Timeline.Task} {step : Step}
    {sequenceId : String} (haction : task.action = .dispatch step sequenceId) (p : Performance ρ)
    : p.release clock task
        =
      fire clock sequenceId step
        { p with score := { p.score with timeline := (p.score.timeline.cancel task.id).2 } } := by
  unfold release fireTask
  rw [haction]

/--
A tick plays the next step, if automatic playback is still on. If it is the tick that the score
knows of, the score knows of none while the step is played.
-/
theorem release_tick (clock : Clock ρ) {task : Timeline.Task} (haction : task.action = .tick)
    (p : Performance ρ)
    : p.release clock task
        =
      let playTask := if p.score.playTask = some task.id then none else p.score.playTask
      let timeline := (p.score.timeline.cancel task.id).2
      let spent : Performance ρ := { p with score := { p.score with playTask, timeline } }
      if p.score.playing then (next clock spent).2 else spent := by
  unfold release fireTask
  rw [haction]
  dsimp only
  split
  . rfl
  . rfl

theorem release_tick_of_not_playing (clock : Clock ρ) {task : Timeline.Task}
    (haction : task.action = .tick) {p : Performance ρ} (hplaying : p.score.playing = false)
    : p.release clock task
        =
      let playTask := if p.score.playTask = some task.id then none else p.score.playTask
      let timeline := (p.score.timeline.cancel task.id).2
      { p with score := { p.score with playTask, timeline } } := by
  rw [release_tick clock haction]
  apply if_neg
  rw [hplaying]
  exact Bool.false_ne_true

theorem fireDueBefore_of_none {clock : Clock ρ} {now : Instant} {mark : Nat} {p : Performance ρ}
    (h : p.score.timeline.popDue? now mark = none) (limit : Nat)
    : p.fireDueBefore clock now mark limit = ([], p) := by
  cases limit with
  | zero => rfl
  | succ limit => rw [fireDueBefore, h]

theorem fireDueBefore_of_some {clock : Clock ρ} {now : Instant} {mark : Nat} {p : Performance ρ}
    {task : Timeline.Task} {left : Timeline}
    (h : p.score.timeline.popDue? now mark = some (task, left)) (limit : Nat)
    : p.fireDueBefore clock now mark (limit + 1)
        =
      let fired := (p.release clock task).fireDueBefore clock now mark limit
      (task :: fired.1, fired.2) := by
  rw [fireDueBefore, h, (Timeline.popDue?_eq_some h).2]
  rfl

theorem fireDueBefore_eq_foldl (clock : Clock ρ) (now : Instant) (mark limit : Nat)
    (p : Performance ρ)
    : (p.fireDueBefore clock now mark limit).2
        =
      (p.fireDueBefore clock now mark limit).1.foldl (release clock) p := by
  induction limit generalizing p with
  | zero => rfl
  | succ limit ih =>
    cases hpop : p.score.timeline.popDue? now mark with
    | none =>
      rw [fireDueBefore_of_none hpop]
      rfl
    | some popped =>
      rw [fireDueBefore_of_some hpop, List.foldl_cons]
      apply ih

theorem fireDue_eq_foldl (clock : Clock ρ) (p : Performance ρ)
    : (p.fireDue clock).2 = (p.fireDue clock).1.foldl (release clock) (p.read clock).2 := by
  apply fireDueBefore_eq_foldl

theorem release_alive (clock : Clock ρ) {p : Performance ρ} (h : p.score.Alive)
    {task : Timeline.Task} (hmem : task ∈ p.score.timeline.tasks)
    : (p.release clock task).score.Alive
        ∧ ∃ fresh, Leads p.score.timeline (p.score.timeline.cancel task.id).2.tasks fresh
            (p.release clock task).score.timeline := by
  let left := (p.score.timeline.cancel task.id).2
  have hticks : left.ticks.map (·.id) = p.score.playTask.toList.filter (· != task.id) := by
    rw [← h.ticks, List.filter_map, Timeline.ticks, Timeline.ticks, List.filter_filter]
    dsimp only [left, Timeline.cancel]
    rw [List.filter_filter]
    simp only [Bool.and_comm, Function.comp_def]
  have hordered : left.Ordered := h.ordered.cancelled task.id
  have hplay := h.playTask_eq_some_iff hmem
  cases haction : task.action with
  | dispatch step sequenceId =>
    rw [haction] at hplay
    rw [release_dispatch clock haction]
    -- the tick still waits
    have hkept : p.score.playTask.toList.filter (· != task.id) = p.score.playTask.toList := by
      rw [List.filter_eq_self]
      intro id hid
      rw [Option.mem_toList] at hid
      rw [bne_iff_ne]
      intro heq
      rw [hid, heq] at hplay
      simp [Action.isDispatch] at hplay
    let spent : Performance ρ := { p with score := { p.score with timeline := left } }
    have hfired : spent.score.Delayed (fire clock sequenceId step spent).score :=
      (kept_delayed clock spent.score).fire sequenceId trivial (.refl _)
    refine ⟨hfired.alive ⟨⟨hordered, hticks.trans hkept⟩, h.playing⟩, ?_⟩
    obtain ⟨fresh, hleads, _⟩ := hfired.timeline
    exact ⟨fresh, hleads.tasks, hleads.ids, hleads.nextId⟩
  | tick =>
    rw [haction] at hplay
    have hplay : p.score.playTask = some task.id := hplay.mpr rfl
    have hplaying : p.score.playing = true := by
      rw [h.playing, hplay]
      rfl
    -- the tick is spent, and playback schedules another
    have hnone : left.ticks.map (·.id) = [] := by
      rw [hticks, hplay]
      simp
    rw [release_tick clock haction]
    dsimp only
    rw [if_pos hplay, if_pos hplaying]
    obtain ⟨halive, fresh, hleads⟩ := next_paced clock
      (p := { p with score := { p.score with timeline := left, playTask := none } })
      ⟨hordered, hnone⟩ hplaying
    refine ⟨halive, fresh, ?_, hleads.ids, hleads.nextId⟩
    rw [hleads.tasks, Timeline.dispatches_eq_tasks (Timeline.ticks_eq_nil hnone)]

theorem release_due (clock : Clock ρ) {p : Performance ρ} (h : p.score.Alive)
    {now : Instant} {mark : Nat} (hmark : mark ≤ p.score.timeline.nextId) {task : Timeline.Task}
    (hmem : task ∈ p.score.timeline.tasks) (hdue : task.isDue now mark = true)
    : (task :: (p.release clock task).score.timeline.tasks.filter (·.isDue now mark)).Perm
        (p.score.timeline.tasks.filter (·.isDue now mark)) := by
  obtain ⟨_, _, hleads⟩ := release_alive clock h hmem
  rw [hleads.filter_isDue hmark]
  exact h.ordered.perm_cancel hmem hdue

/--
From `start` to `s`, the tasks `fired` left the timeline. They are those that were due, in the order
in which tasks fire, and whatever was scheduled since is still there.
-/
structure Settled (now : Instant) (mark : Nat) (start : Score) (fired : List Timeline.Task)
    (s : Score) : Prop where
  alive : s.Alive
  due : fired.Perm (start.timeline.tasks.filter (·.isDue now mark))
  order : fired.Pairwise fun a b => a.before b = true
  timeline : ∃ fresh,
    Leads start.timeline (start.timeline.tasks.filter (!·.isDue now mark)) fresh s.timeline

namespace Settled

variable {now : Instant} {mark : Nat}

theorem refl {s : Score} (h : s.Alive) (hnone : s.timeline.tasks.filter (·.isDue now mark) = [])
    : Settled now mark s [] s where
  alive := h
  due := by rw [hnone]
  order := .nil
  timeline := by
    have hall : s.timeline.tasks.filter (!·.isDue now mark) = s.timeline.tasks := by
      rw [List.filter_eq_self]
      intro task hmem
      simpa using List.filter_eq_nil_iff.mp hnone task hmem
    rw [hall]
    exact ⟨[], Leads.refl _⟩

theorem release {clock : Clock ρ} {p : Performance ρ} {task : Timeline.Task}
    {fired : List Timeline.Task} {s : Score} (h : p.score.Alive)
    (hmark : mark ≤ p.score.timeline.nextId)
    (hfirst : Timeline.earliest? (p.score.timeline.tasks.filter (·.isDue now mark)) = some task)
    (hrest : Settled now mark (p.release clock task).score fired s)
    : Settled now mark p.score (task :: fired) s := by
  have hmem := Timeline.earliest?_mem hfirst
  rw [List.mem_filter] at hmem
  have hdue := release_due clock h hmark hmem.1 hmem.2
  constructor
  . exact hrest.alive
  . exact (hrest.due.cons task).trans hdue
  . rw [List.pairwise_cons]
    refine ⟨?_, hrest.order⟩
    intro other hother
    have hother := hrest.due.subset hother
    have hids : ((p.score.timeline.tasks.filter (·.isDue now mark)).map (·.id)).Nodup :=
      h.ordered.nodup_ids.sublist (List.filter_sublist.map _)
    have hid : other.id ≠ task.id := by
      rw [← (hdue.map _).nodup_iff, List.map_cons, List.nodup_cons] at hids
      intro heq
      exact hids.1 (heq ▸ List.mem_map_of_mem hother)
    exact Timeline.before_of_earliest? hfirst (hdue.subset (List.mem_cons_of_mem _ hother)) hid
  . obtain ⟨_, fresh, hleads⟩ := release_alive clock h hmem.1
    obtain ⟨more, hmore⟩ := hrest.timeline
    have hlater : ∀ later ∈ fresh, (!later.isDue now mark) = true := by
      intro later hlater
      simp [hleads.not_due_of_mem_fresh hmark hlater]
    have := hleads.filter _ hmore hlater
    rw [h.ordered.filter_cancel hmem.1 (by simp [hmem.2])] at this
    exact ⟨_, this⟩

variable {start s : Score} {fired : List Timeline.Task} {task : Timeline.Task}

omit [RandomSource ρ] in
theorem ne_nil (h : Settled now start.timeline.nextId start fired s)
    (hordered : start.timeline.Ordered) (hmem : task ∈ start.timeline.tasks) (hdue : task.due ≤ now)
    : fired ≠ [] := by
  intro hnone
  have hempty := h.due
  rw [hnone] at hempty
  have hempty := List.filter_eq_nil_iff.mp hempty.nil_eq.symm task hmem
  rw [hordered.isDue_nextId hmem] at hempty
  exact hempty (decide_eq_true hdue)

omit [RandomSource ρ] in
theorem lt_due (h : Settled now start.timeline.nextId start fired s)
    (hordered : start.timeline.Ordered) (hbefore : task ∈ start.timeline.tasks)
    (hafter : task ∈ s.timeline.tasks)
    : now < task.due := by
  obtain ⟨fresh, hleads⟩ := h.timeline
  rw [hleads.tasks, List.mem_append] at hafter
  cases hafter with
  | inl hkept =>
    have hnot := (List.mem_filter.mp hkept).2
    rw [hordered.isDue_nextId hbefore, Bool.not_eq_true', decide_eq_false_iff_not] at hnot
    exact Instant.not_le.mp hnot
  | inr hfresh =>
    have := (hleads.le_of_mem_fresh hfresh).1
    have := hordered.below task hbefore
    omega

end Settled

theorem fireDueBefore_settled (clock : Clock ρ) {now : Instant} {mark limit : Nat}
    {p : Performance ρ} (h : p.score.Alive) (hmark : mark ≤ p.score.timeline.nextId)
    (hlimit : (p.score.timeline.tasks.filter (·.isDue now mark)).length ≤ limit)
    : Settled now mark p.score (p.fireDueBefore clock now mark limit).1
        (p.fireDueBefore clock now mark limit).2.score := by
  induction limit generalizing p with
  | zero =>
    apply Settled.refl h
    rw [← List.length_eq_zero_iff]
    omega
  | succ limit ih =>
    cases hpop : p.score.timeline.popDue? now mark with
    | none =>
      rw [fireDueBefore_of_none hpop]
      apply Settled.refl h (Timeline.popDue?_eq_none_iff.mp hpop)
    | some popped =>
      obtain ⟨task, left⟩ := popped
      obtain ⟨hfirst, _⟩ := Timeline.popDue?_eq_some hpop
      rw [fireDueBefore_of_some hpop]
      have hmem := Timeline.earliest?_mem hfirst
      rw [List.mem_filter] at hmem
      obtain ⟨halive, _, hleads⟩ := release_alive clock h hmem.1
      -- what the task schedules has its id from the mark on, so one task less is due
      have hless := (release_due clock h hmark hmem.1 hmem.2).length_eq
      rw [List.length_cons] at hless
      apply Settled.release h hmark hfirst
      apply ih halive
      . have := hleads.nextId
        omega
      . omega

theorem fireDue_settled (clock : Clock ρ) {p : Performance ρ} (h : p.score.Alive)
    : Settled (p.read clock).1 p.score.timeline.nextId p.score (p.fireDue clock).1
        (p.fireDue clock).2.score := by
  apply fireDueBefore_settled clock (p := (p.read clock).2) h (Nat.le_refl _)
  apply List.length_filter_le

end Performance

end Narrative
