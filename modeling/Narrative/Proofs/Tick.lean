import Narrative.Proofs.Frame
import Narrative.Proofs.Timeline

/-!
This module contains what the operations of a score do to its timeline: automatic playback keeps one
tick on it, and delayed steps stay there until they are due.
-/

namespace Narrative

namespace Timeline

def ticks (t : Timeline) : List Task :=
  t.tasks.filter fun task => !task.action.isDispatch

def dispatches (t : Timeline) : List Task :=
  t.tasks.filter (·.action.isDispatch)

theorem dispatches_eq_tasks {t : Timeline} (h : t.ticks = []) : t.dispatches = t.tasks := by
  unfold dispatches
  unfold ticks at h
  rw [List.filter_eq_self]
  intro task hmem
  have := List.filter_eq_nil_iff.mp h task hmem
  simpa using this

theorem ticks_eq_nil {t : Timeline} (h : t.ticks.map (·.id) = []) : t.ticks = [] := by
  simpa using h

end Timeline

open Timeline (Leads)

namespace Score

structure Paced (s : Score) : Prop where
  ordered : s.timeline.Ordered
  ticks : s.timeline.ticks.map (·.id) = s.playTask.toList

structure Alive (s : Score) : Prop extends Paced s where
  playing : s.playing = s.playTask.isSome

structure Delayed (start s : Score) : Prop where
  playing : s.playing = start.playing
  playTask : s.playTask = start.playTask
  timeline : ∃ fresh, Leads start.timeline start.timeline.tasks fresh s.timeline
    ∧ ∀ task ∈ fresh, task.action.isDispatch = true

theorem Paced.playTask_eq_some_iff {s : Score} (h : s.Paced) {task : Timeline.Task}
    (hmem : task ∈ s.timeline.tasks)
    : s.playTask = some task.id ↔ task.action.isDispatch = false := by
  have hlist : s.playTask = some task.id ↔ task.id ∈ s.playTask.toList := by
    rw [Option.mem_toList]
  rw [hlist, ← h.ticks]
  constructor
  . intro hid
    -- no two tasks have the same id, so the one with the id of the tick is the tick
    obtain ⟨tick, htick, hid⟩ := List.mem_map.mp hid
    have ⟨hmem', hnot⟩ := List.mem_filter.mp htick
    rw [← h.ordered.eq_of_id_eq hmem' hmem hid]
    simpa using hnot
  . intro hnot
    apply List.mem_map_of_mem
    simp [Timeline.ticks, hmem, hnot]

theorem Paced.cancelTick_eq {s : Score} (h : s.Paced)
    : s.cancelTick
        =
      { s with
        playTask := none
        timeline := { s.timeline with tasks := s.timeline.dispatches } } := by
  unfold cancelTick
  split
  . next hnone =>
    have hticks := h.ticks
    rw [hnone] at hticks
    rw [Timeline.dispatches_eq_tasks (Timeline.ticks_eq_nil hticks), ← hnone]
  . next id hsome =>
    have : ∀ task ∈ s.timeline.tasks, (task.id != id) = task.action.isDispatch := by
      intro task hmem
      have := h.playTask_eq_some_iff hmem
      rw [hsome, Option.some.injEq] at this
      rw [Bool.eq_iff_iff, bne_iff_ne, ne_eq, eq_comm, this, Bool.not_eq_false]
    rw [Timeline.dispatches, ← List.filter_congr this]
    rfl

theorem dispatches_dispatches (t : Timeline)
    : Timeline.dispatches { t with tasks := t.dispatches } = t.dispatches := by
  unfold Timeline.dispatches
  simp

theorem Paced.cancelTick {s : Score} (h : s.Paced) : s.cancelTick.Paced := by
  rw [h.cancelTick_eq]
  refine ⟨⟨h.ordered.increasing.sublist List.filter_sublist, ?_⟩, ?_⟩
  . exact fun task hmem => h.ordered.below task (List.mem_filter.mp hmem).1
  . unfold Timeline.ticks Timeline.dispatches
    simp

namespace Delayed

variable {start s : Score}

theorem refl (s : Score) : Delayed s s where
  playing := rfl
  playTask := rfl
  timeline := ⟨[], Leads.refl _, by simp⟩

theorem congr (h : Delayed start s) {s' : Score} (hplaying : s'.playing = s.playing)
    (hplayTask : s'.playTask = s.playTask) (htimeline : s'.timeline = s.timeline)
    : Delayed start s' where
  playing := hplaying.trans h.playing
  playTask := hplayTask.trans h.playTask
  timeline := htimeline ▸ h.timeline

theorem of_eq (hplaying : s.playing = start.playing) (hplayTask : s.playTask = start.playTask)
    (htimeline : s.timeline = start.timeline)
    : Delayed start s :=
  (refl start).congr hplaying hplayTask htimeline

theorem postpone (h : Delayed start s) (now : Instant) (sequenceId : String) (step : Step)
    : Delayed start (s.postpone now sequenceId step) where
  playing := h.playing
  playTask := h.playTask
  timeline := by
    obtain ⟨fresh, hleads, hdispatch⟩ := h.timeline
    refine ⟨_, hleads.trans (Leads.schedule _ _ _), ?_⟩
    intro task hmem
    rw [List.mem_append, List.mem_singleton] at hmem
    cases hmem with
    | inl hold => exact hdispatch task hold
    | inr hnew =>
      rw [hnew]
      rfl

theorem ticks_eq (h : Delayed start s) : s.timeline.ticks = start.timeline.ticks := by
  obtain ⟨fresh, hleads, hdispatch⟩ := h.timeline
  have : fresh.filter (fun task => !task.action.isDispatch) = [] := by
    rw [List.filter_eq_nil_iff]
    intro task hmem
    simp [hdispatch task hmem]
  unfold Timeline.ticks
  rw [hleads.tasks, List.filter_append, this, List.append_nil]

theorem paced (h : Delayed start s) (hstart : start.Paced) : s.Paced where
  ordered := by
    obtain ⟨_, hleads, _⟩ := h.timeline
    exact hleads.ordered (List.Sublist.refl _) hstart.ordered
  ticks := by rw [h.ticks_eq, hstart.ticks, h.playTask]

theorem alive (h : Delayed start s) (hstart : start.Alive) : s.Alive where
  toPaced := h.paced hstart.toPaced
  playing := by rw [h.playing, hstart.playing, h.playTask]

end Delayed

theorem Paced.scheduleTick_eq {s : Score} (h : s.Paced) (now : Instant)
    : s.scheduleTick now
        =
      { s with
        playTask := some s.timeline.nextId
        timeline := { s.timeline with tasks := s.timeline.dispatches }.schedule
          (now.after s.timing.tickMs) .tick } := by
  unfold Score.scheduleTick
  rw [h.cancelTick_eq]

theorem Paced.scheduleTick {s : Score} (h : s.Paced) (now : Instant)
    : (s.scheduleTick now).Paced
        ∧ (s.scheduleTick now).playTask.isSome = true
        ∧ (s.scheduleTick now).playing = s.playing
        ∧ ∃ fresh, Leads s.timeline s.timeline.dispatches fresh (s.scheduleTick now).timeline := by
  let left : Timeline := { s.timeline with tasks := s.timeline.dispatches }
  have hleads := Leads.schedule left (now.after s.timing.tickMs) .tick
  rw [h.scheduleTick_eq]
  have hleads : Leads s.timeline s.timeline.dispatches _ (left.schedule _ .tick) :=
    ⟨hleads.tasks, hleads.ids, hleads.nextId⟩
  refine ⟨⟨?_, ?_⟩, rfl, rfl, _, hleads⟩
  . exact hleads.ordered List.filter_sublist h.ordered
  . unfold Timeline.ticks
    rw [hleads.tasks, List.filter_append, Timeline.dispatches, List.filter_filter]
    simp [Action.isDispatch, left]

end Score

namespace Performance

variable {ρ : Type} [RandomSource ρ]

theorem kept_delayed (clock : Clock ρ) (start : Score)
    : Kept clock (fun _ => True) (fun p => start.Delayed p.score) where
  substep _ _ := trivial
  draw h _ _ := ⟨trivial, h.congr rfl rfl rfl⟩
  postpone _ _ h := h.postpone _ _ _
  carryOut {p step} sequenceId _ _ h := by
    obtain ⟨_, _, _, hsteer⟩ := (p.record clock sequenceId step).score.steer_eq step
    unfold carryOut
    dsimp
    rw [hsteer]
    exact h.congr rfl rfl rfl

theorem advanceCurrent_delayed (clock : Clock ρ) (p : Performance ρ)
    : p.score.Delayed (p.advanceCurrent clock).2.score := by
  unfold advanceCurrent
  split
  . split
    . exact .refl _
    . exact (kept_delayed clock p.score).start _ (.refl _)
  . exact .refl _

theorem advanceChosen_delayed (clock : Clock ρ) (p : Performance ρ)
    : p.score.Delayed (advanceCurrent clock { p with score := p.score.choose }).2.score := by
  have := advanceCurrent_delayed clock { p with score := p.score.choose }
  obtain ⟨_, _, hchoose⟩ := p.score.choose_eq
  dsimp at this
  rw [hchoose] at this ⊢
  exact ⟨this.playing, this.playTask, this.timeline⟩

theorem next_delayed (clock : Clock ρ) {p : Performance ρ} (h : p.score.playing = false)
    : p.score.Delayed (p.next clock).2.score := by
  have hplayed := advanceChosen_delayed clock p
  unfold next
  dsimp
  rw [hplayed.playing, h]
  exact hplayed

theorem next_paced (clock : Clock ρ) {p : Performance ρ} (h : p.score.Paced)
    (hplaying : p.score.playing = true)
    : (p.next clock).2.score.Alive
        ∧ ∃ fresh, Leads p.score.timeline p.score.timeline.dispatches fresh
            (p.next clock).2.score.timeline := by
  have hplayed := advanceChosen_delayed clock p
  unfold next
  dsimp
  rw [hplayed.playing, hplaying]
  dsimp
  generalize (advanceCurrent clock { p with score := p.score.choose }).2 = played at hplayed
  obtain ⟨hpaced, hsome, hsame, more, hmore⟩ :=
    (hplayed.paced h).scheduleTick (clock.read played.source).1
  refine ⟨⟨hpaced, ?_⟩, ?_⟩
  . exact (hsame.trans (hplayed.playing.trans hplaying)).trans hsome.symm
  . obtain ⟨fresh, hleads, hdispatch⟩ := hplayed.timeline
    exact ⟨_, hleads.filter _ hmore hdispatch⟩

end Performance

end Narrative
