import Narrative.Proofs.Due

/-!
This module contains what becomes of the tasks of a score in the course of a run: a tick waits as
long as automatic playback is on, and every delayed step waits until it fires.
-/

namespace Narrative

open Timeline (Leads)

/--
From `start` to `s`, no delayed step left the timeline other than those that `fired`, and everything
that was scheduled is still there.
-/
structure Conserved (start : Score) (fired : List Timeline.Task) (s : Score) : Prop where
  alive : s.Alive
  timeline : ∃ kept fresh, Leads start.timeline kept fresh s.timeline
    ∧ kept.Sublist start.timeline.tasks
    ∧ start.timeline.dispatches.Perm ((kept ++ fired).filter (·.action.isDispatch))

namespace Conserved

variable {start s : Score} {fired : List Timeline.Task}

theorem delayed (h : start.Delayed s) (hstart : start.Alive) : Conserved start [] s where
  alive := h.alive hstart
  timeline := by
    obtain ⟨fresh, hleads, _⟩ := h.timeline
    refine ⟨_, fresh, hleads, .refl _, ?_⟩
    rw [List.append_nil]
    rfl

theorem ticked (h : s.Alive) {fresh : List Timeline.Task}
    (hleads : Leads start.timeline start.timeline.dispatches fresh s.timeline)
    : Conserved start [] s where
  alive := h
  timeline := by
    refine ⟨_, fresh, hleads, List.filter_sublist, ?_⟩
    rw [List.append_nil, Timeline.dispatches, List.filter_filter]
    simp

theorem settled {now : Instant} {mark : Nat} (h : Performance.Settled now mark start fired s)
    : Conserved start fired s where
  alive := h.alive
  timeline := by
    obtain ⟨fresh, hleads⟩ := h.timeline
    refine ⟨_, fresh, hleads, List.filter_sublist, ?_⟩
    have hdue := h.due.append_left (start.timeline.tasks.filter (!·.isDue now mark))
    have hall := List.filter_append_perm (·.isDue now mark) start.timeline.tasks
    exact ((hdue.trans List.perm_append_comm).trans hall).symm.filter _

end Conserved

variable {ρ : Type} [RandomSource ρ]

namespace Performance

theorem next_conserved (clock : Clock ρ) {p : Performance ρ} (h : p.score.Alive)
    : Conserved p.score [] (p.next clock).2.score := by
  cases hplaying : p.score.playing with
  | true =>
    obtain ⟨halive, _, hleads⟩ := next_paced clock h.toPaced hplaying
    exact .ticked halive hleads
  | false => exact .delayed (next_delayed clock hplaying) h

theorem request_conserved (clock : Clock ρ) {p : Performance ρ} (h : p.score.Alive)
    : Conserved p.score [] (p.request clock).2.score := by
  unfold request
  dsimp
  split
  . exact .delayed (.refl _) h
  . let triggered : Score := { p.score with triggerTime := some (p.read clock).1 }
    have hsame : p.score.Delayed triggered := .of_eq rfl rfl rfl
    have hnext := next_conserved clock (p := ⟨triggered, (p.read clock).2.source⟩) (hsame.alive h)
    exact ⟨hnext.alive, hnext.timeline⟩

theorem play_conserved (clock : Clock ρ) {p : Performance ρ} (h : p.score.Alive)
    : Conserved p.score [] (p.play clock).2.score := by
  have : Score.Paced { p.score with playing := true } := ⟨h.ordered, h.ticks⟩
  obtain ⟨halive, _, hleads⟩ := next_paced clock (p := { p with score.playing := true }) this rfl
  exact .ticked halive hleads

theorem stop_conserved {s : Score} (h : s.Alive) : Conserved s [] s.stop := by
  have hpaced : Score.Paced { s with playing := false } := ⟨h.ordered, h.ticks⟩
  have hleads : Leads s.timeline s.timeline.dispatches []
      { s.timeline with tasks := s.timeline.dispatches } :=
    ⟨by rw [List.append_nil], rfl, rfl⟩
  have hcancelled := hpaced.cancelTick
  unfold Score.stop
  rw [hpaced.cancelTick_eq] at hcancelled ⊢
  exact .ticked ⟨hcancelled, rfl⟩ hleads

theorem perform_conserved (clock : Clock ρ) (operation : Operation) {p : Performance ρ}
    (h : p.score.Alive)
    : Conserved p.score (p.firedBy clock operation) (p.perform clock operation).score := by
  have hkept := kept_delayed clock p.score
  cases operation with
  | next => exact next_conserved clock h
  | request => exact request_conserved clock h
  | play => exact play_conserved clock h
  | stop => exact stop_conserved h
  | runDue => exact .settled (fireDue_settled clock h)
  | playSequence id =>
    rw [perform_playSequence]
    split
    . exact .delayed (.refl _) h
    . next index _ =>
      refine .delayed (hkept.start index (p := { p with score := p.score.enqueue index }) ?_) h
      exact .of_eq rfl rfl rfl
  | setSequence id atDate autoStart =>
    rw [perform_setSequence]
    unfold select
    split
    . exact .delayed (.refl _) h
    . next index _ =>
      have hselected : p.score.Delayed (p.score.select index atDate) := .of_eq rfl rfl rfl
      dsimp
      split
      . exact .delayed (hkept.start index (p := { p with score := _ }) hselected) h
      . exact .delayed hselected h
  | reset => exact .delayed (.of_eq rfl rfl rfl) h
  | takeEvents => exact .delayed (.of_eq rfl rfl rfl) h
  | clearEvents => exact .delayed (.of_eq rfl rfl rfl) h

theorem due_of_mem_firedBy (clock : Clock ρ) (operation : Operation) {p : Performance ρ}
    (h : p.score.Alive) {task : Timeline.Task} (hmem : task ∈ p.firedBy clock operation)
    : task.due ≤ (p.read clock).1 := by
  cases operation with
  | runDue =>
    have := (fireDue_settled clock h).due.subset hmem
    rw [List.mem_filter, Timeline.Task.isDue_iff] at this
    exact this.2.1
  | _ => simp [firedBy] at hmem

end Performance

namespace Chronicle

structure Faithful (c : Chronicle ρ) : Prop where
  alive : c.score.Alive
  ids : c.scheduled.map (·.id) = List.range c.score.timeline.nextId
  steps : (c.scheduled.filter (·.action.isDispatch)).Perm
    (c.score.timeline.dispatches ++ (c.fired.map (·.2)).filter (·.action.isDispatch))
  due : ∀ entry ∈ c.fired, entry.2.due ≤ entry.1

omit [RandomSource ρ] in
theorem Faithful.congr {c : Chronicle ρ} (h : c.Faithful) {s : Score}
    (hplaying : s.playing = c.score.playing) (hplayTask : s.playTask = c.score.playTask)
    (htimeline : s.timeline = c.score.timeline)
    : Faithful { c with performance.score := s } where
  alive := (Score.Delayed.of_eq hplaying hplayTask htimeline).alive h.alive
  ids := h.ids.trans (congrArg (fun t => List.range t.nextId) htimeline.symm)
  steps := by
    have := h.steps
    rw [← htimeline] at this
    exact this
  due := h.due

omit [RandomSource ρ] in
theorem opening_faithful (now : Instant) (parts : List Part) (source : ρ)
    : (opening now parts source).Faithful := by
  obtain ⟨_, _, _, _, _, _, _, h⟩ := Score.assembled_eq now parts
  unfold opening
  rw [h]
  constructor
  . exact ⟨⟨⟨.nil, fun _ hmem => nomatch hmem⟩, rfl⟩, rfl⟩
  . rfl
  . exact .nil
  . exact fun _ hmem => nomatch hmem

theorem act_faithful (clock : Clock ρ) (operation : Operation) {c : Chronicle ρ} (h : c.Faithful)
    : (c.act clock operation).Faithful := by
  have hconserved := c.performance.perform_conserved clock operation h.alive
  obtain ⟨kept, fresh, hleads, hkept, hsteps⟩ := hconserved.timeline
  have hscheduled : (c.act clock operation).scheduled = c.scheduled ++ fresh := by
    rw [← hleads.filter_new h.alive.ordered hkept]
    rfl
  have hfired : (c.act clock operation).fired.map (·.2)
      = c.fired.map (·.2) ++ c.performance.firedBy clock operation := by
    simp [act, Function.comp_def]
  constructor
  . exact hconserved.alive
  . have hnext : (c.act clock operation).score.timeline.nextId = _ := hleads.nextId
    rw [hscheduled, List.map_append, h.ids, hleads.ids, hnext, List.range_eq_range',
      List.range_eq_range', ← List.range'_append_1, Nat.zero_add]
    rfl
  . -- the delayed steps from before were kept or fired, and the fresh ones are there
    have hleft : (c.act clock operation).score.timeline.tasks = _ := hleads.tasks
    rw [hscheduled, hfired, Timeline.dispatches, hleft]
    have hbefore := h.steps.trans (hsteps.append_right _)
    simp only [List.filter_append, List.append_assoc] at hbefore ⊢
    refine (hbefore.append_right _).trans ?_
    simp only [List.append_assoc]
    apply List.Perm.append_left
    rw [← List.append_assoc (List.filter _ fresh)]
    exact List.perm_append_comm.trans (List.perm_append_comm.append_right _)
  . intro entry hmem
    simp only [act, List.mem_append, List.mem_map] at hmem
    cases hmem with
    | inl hold => exact h.due entry hold
    | inr hnow =>
      obtain ⟨task, hmem, hentry⟩ := hnow
      rw [← hentry]
      exact Performance.due_of_mem_firedBy clock operation h.alive hmem

theorem take_faithful (turn : Turn ρ) {c : Chronicle ρ} (h : c.Faithful)
    : (c.take turn).Faithful := by
  cases turn with
  | act clock operation => exact act_faithful clock operation h
  | add part =>
    obtain ⟨_, _, _, _, _, _, _, hadd⟩ := c.score.add_eq part
    unfold take
    dsimp
    rw [hadd]
    exact h.congr rfl rfl rfl
  | init => exact h.congr rfl rfl rfl

theorem run_faithful (turns : List (Turn ρ)) {c : Chronicle ρ} (h : c.Faithful)
    : (c.run turns).Faithful := by
  induction turns generalizing c with
  | nil => exact h
  | cons turn turns ih => exact ih (take_faithful turn h)

/--
At any time of a run, the tasks that fire are those that are due at the instant that is read first,
each of them once, by their instants and then in the order in which they were scheduled. Those that
are due later stay, and what the firing ones schedule comes after them.
-/
theorem runDue_eq_foldl_release (start : Instant) (parts : List Part) (source : ρ)
    (turns : List (Turn ρ)) (clock : Clock ρ)
    : let p := ((opening start parts source).run turns).performance
      let now := (p.read clock).1
      let before := p.score.timeline
      let after := (p.runDue clock).2.score.timeline
      let fired := (p.fireDue clock).1
      fired.Perm (before.tasks.filter fun task => task.due ≤ now)
        ∧ fired.Pairwise (fun a b => a.due < b.due ∨ a.due = b.due ∧ a.id < b.id)
        ∧ p.runDue clock = (fired.length, fired.foldl (Performance.release clock) (p.read clock).2)
        ∧ ∃ scheduled,
            after.tasks = (before.tasks.filter fun task => now < task.due) ++ scheduled
              ∧ scheduled.map (·.id) = List.range' before.nextId scheduled.length
              ∧ after.nextId = before.nextId + scheduled.length := by
  intro p now before after fired
  have h : p.score.Alive := (run_faithful turns (opening_faithful start parts source)).alive
  have hsettled := p.fireDue_settled clock h
  obtain ⟨scheduled, hleads⟩ := hsettled.timeline
  refine ⟨?_, ?_, ?_, scheduled, ?_, hleads.ids, hleads.nextId⟩
  . have hdue := hsettled.due
    rw [List.filter_congr fun task hmem => h.ordered.isDue_nextId hmem now] at hdue
    exact hdue
  . apply hsettled.order.imp
    intro a b hbefore
    simpa [Timeline.Task.before] using hbefore
  . rw [← Performance.fireDue_eq_foldl]
    rfl
  . apply hleads.tasks.trans
    congr 1
    apply List.filter_congr
    intro task hmem
    rw [h.ordered.isDue_nextId hmem, ← decide_not, decide_eq_decide]
    exact Instant.not_le

/--
At any time of a run, one tick waits in automatic playback, the one that the score knows of, and
none otherwise. The delayed steps that were ever scheduled are those that wait and those that fired
when they were due, and each that fires is released once.
-/
theorem ticks_eq_and_dispatches_perm (start : Instant) (parts : List Part) (source : ρ)
    (turns : List (Turn ρ))
    : let c := (opening start parts source).run turns
      let t := c.score.timeline
      (c.score.playing = true →
          ∃ tick, t.ticks = [tick] ∧ c.score.playTask = some tick.id)
        ∧ (c.score.playing = false → t.ticks = [] ∧ c.score.playTask = none)
        ∧ c.scheduled.map (·.id) = List.range t.nextId
        ∧ (c.scheduled.filter (·.action.isDispatch)).Perm
            (t.dispatches ++ (c.fired.map (·.2)).filter (·.action.isDispatch))
        ∧ (∀ entry ∈ c.fired, entry.2.due ≤ entry.1)
        ∧ ∀ clock : Clock ρ,
            (c.act clock .runDue).performance
              = (c.performance.fireDue clock).1.foldl (Performance.release clock)
                  (c.performance.read clock).2 := by
  intro c t
  have h : c.Faithful := run_faithful turns (opening_faithful start parts source)
  have hticks : t.ticks.map (·.id) = c.score.playTask.toList := h.alive.ticks
  refine ⟨?_, ?_, h.ids, h.steps, h.due, ?_⟩
  . intro hplaying
    rw [h.alive.playing, Option.isSome_iff_exists] at hplaying
    obtain ⟨id, hid⟩ := hplaying
    rw [hid, Option.toList_some, List.map_eq_singleton_iff] at hticks
    obtain ⟨tick, htick, heq⟩ := hticks
    exact ⟨tick, htick, heq ▸ hid⟩
  . intro hplaying
    rw [h.alive.playing, Option.isSome_eq_false_iff, Option.isNone_iff_eq_none] at hplaying
    rw [hplaying] at hticks
    exact ⟨Timeline.ticks_eq_nil hticks, hplaying⟩
  . intro clock
    apply Performance.fireDue_eq_foldl

end Chronicle

end Narrative
