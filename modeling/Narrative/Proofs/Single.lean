import Narrative.Proofs.Balance
import Narrative.Proofs.Finish

/-!
This module contains scores of single steps, none of which is a group, is delayed or sets a sequence
going. Nothing but a tick ever waits in them, and no more than one event occurs at a time.
-/

namespace Narrative

def Step.isSingle (step : Step) : Bool :=
  !step.isGroup && !step.isDelayed && step.starts?.isNone

namespace Score

def IsSingle (s : Score) : Prop :=
  ∀ sequence ∈ s.sequences, ∀ step ∈ sequence.steps, step.isSingle = true

/--
The sequences are those of `start`, and nothing waits but the tick.
-/
structure Sparse (start s : Score) : Prop extends s.Paced where
  waiting : s.timeline.dispatches = []
  rewound : s.sequences.map Sequence.rewind = start.sequences.map Sequence.rewind

theorem Sparse.tasks_eq {start s : Score} (h : start.Sparse s)
    : s.timeline.ticks = s.timeline.tasks := by
  unfold Timeline.ticks
  rw [List.filter_eq_self]
  intro task hmem
  rw [Timeline.dispatches_eq_nil_iff.mp h.waiting task hmem]
  rfl

theorem Sparse.size_le {start s : Score} (h : start.Sparse s) : s.timeline.size ≤ 1 := by
  unfold Timeline.size
  rw [← h.tasks_eq, ← List.length_map (·.id), h.ticks]
  cases s.playTask with
  | none => exact Nat.zero_le 1
  | some => exact Nat.le_refl 1

end Score

namespace Performance

variable {ρ : Type} [RandomSource ρ] {start : Score}

/--
What a step may change at most if it is a single one: at most one event more, and no task.
-/
def Steps (before after : Score) : Prop :=
  after.timeline = before.timeline ∧ after.events.size ≤ before.events.size + 1

theorem fire_steps (clock : Clock ρ) (sequenceId : String) {step : Step}
    (hstep : step.isSingle = true) (p : Performance ρ)
    : Steps p.score (execute clock (fire clock) sequenceId step p).score := by
  unfold Step.isSingle at hstep
  obtain ⟨⟨hgroup, hdelayed⟩, hstarts⟩ : (step.isGroup = false ∧ step.isDelayed = false)
      ∧ step.starts? = none := by
    simpa using hstep
  obtain ⟨_, _, _, hsteer⟩ := (p.record clock sequenceId step).score.steer_eq step
  unfold execute
  rw [if_neg (Bool.eq_false_iff.mp hdelayed)]
  unfold fire maxDepth
  rw [dispatch_single _ _ _ _ _ hgroup, hstarts]
  unfold carryOut
  dsimp only
  rw [hsteer]
  refine ⟨rfl, ?_⟩
  unfold record Score.record
  dsimp only
  rw [Array.size_push]
  exact Nat.le_refl _

theorem advance_steps (clock : Clock ρ) (hsingle : start.IsSingle) (index : Nat) {p : Performance ρ}
    (h : Rewound start p)
    : Steps p.score (p.advance clock (fire clock) index).2.score := by
  unfold advance
  split
  . exact ⟨rfl, Nat.le_succ _⟩
  . next sequence hget =>
    split
    . exact ⟨rfl, Nat.le_succ _⟩
    . next step after source hnext =>
      obtain ⟨hmem, _⟩ := given_of_rewound h hget hnext
      exact fire_steps clock sequence.id (Score.of_mem_stepsAt hsingle hmem) _

theorem advanceCurrent_steps (clock : Clock ρ) (hsingle : start.IsSingle) {p : Performance ρ}
    (h : Rewound start p)
    : Steps p.score (p.advanceCurrent clock).2.score := by
  unfold advanceCurrent
  split
  . split
    . exact ⟨rfl, Nat.le_succ _⟩
    . exact advance_steps clock hsingle _ h
  . exact ⟨rfl, Nat.le_succ _⟩

theorem next_sparse (clock : Clock ρ) (hsingle : start.IsSingle) {p : Performance ρ}
    (h : start.Sparse p.score)
    : start.Sparse (p.next clock).2.score
        ∧ (p.next clock).2.score.events.size ≤ p.score.events.size + 1 := by
  have hsteady := steady_rewound (ρ := ρ) start
  have hpaced : (p.next clock).2.score.Paced := by
    cases hplaying : p.score.playing with
    | true => exact (next_paced clock h.toPaced hplaying).1.toPaced
    | false => exact (next_delayed clock hplaying).paced h.toPaced
  have hchosen : Rewound start { p with score := p.score.choose } := hsteady.choose h.rewound
  obtain ⟨htimeline, hevents⟩ := advanceCurrent_steps clock hsingle hchosen
  obtain ⟨_, _, hchoose⟩ := p.score.choose_eq
  have hkept : (advanceCurrent clock { p with score := p.score.choose }).2.score.timeline
        = p.score.timeline
      ∧ (advanceCurrent clock { p with score := p.score.choose }).2.score.events.size
        ≤ p.score.events.size + 1 := by
    rw [hchoose] at htimeline hevents ⊢
    exact ⟨htimeline, hevents⟩
  suffices hnext : (p.next clock).2.score.timeline.dispatches = []
      ∧ (p.next clock).2.score.events.size ≤ p.score.events.size + 1 from
    ⟨⟨hpaced, hnext.1, hsteady.next clock h.rewound⟩, hnext.2⟩
  unfold next
  dsimp only
  generalize (advanceCurrent clock { p with score := p.score.choose }).2 = played at hkept
  have hwaiting : played.score.timeline.dispatches = [] := by
    rw [hkept.1]
    exact h.waiting
  split
  . obtain ⟨_, _, _, _, hscheduled, hafter⟩ :=
      Score.Idled.scheduleTick hwaiting (played.read clock).1
    unfold scheduleTick
    dsimp only
    change (played.score.scheduleTick (played.read clock).1).timeline.dispatches = []
      ∧ (played.score.scheduleTick (played.read clock).1).events.size ≤ _
    rw [hscheduled]
    exact ⟨hafter, hkept.2⟩
  . exact ⟨hwaiting, hkept.2⟩

theorem request_sparse (clock : Clock ρ) (hsingle : start.IsSingle) {p : Performance ρ}
    (h : start.Sparse p.score)
    : start.Sparse (p.request clock).2.score
        ∧ (p.request clock).2.score.events.size ≤ p.score.events.size + 1 := by
  unfold request
  dsimp only
  split
  . exact ⟨h, Nat.le_succ _⟩
  . let triggered : Performance ρ :=
      { (p.read clock).2 with score := { p.score with triggerTime := some (p.read clock).1 } }
    have htriggered : start.Sparse triggered.score :=
      ⟨⟨h.ordered, h.ticks⟩, h.waiting, h.rewound⟩
    exact next_sparse clock hsingle htriggered

theorem play_sparse (clock : Clock ρ) (hsingle : start.IsSingle) {p : Performance ρ}
    (h : start.Sparse p.score)
    : start.Sparse (p.play clock).2.score
        ∧ (p.play clock).2.score.events.size ≤ p.score.events.size + 1 := by
  have hplaying : start.Sparse { p.score with playing := true } :=
    ⟨⟨h.ordered, h.ticks⟩, h.waiting, h.rewound⟩
  exact next_sparse clock hsingle (p := { p with score := { p.score with playing := true } }) hplaying

theorem release_sparse (clock : Clock ρ) (hsingle : start.IsSingle) {p : Performance ρ}
    (h : start.Sparse p.score) {task : Timeline.Task} (hmem : task ∈ p.score.timeline.tasks)
    : start.Sparse (p.release clock task).score
        ∧ (p.release clock task).score.events.size ≤ p.score.events.size + 1 := by
  have hdispatch := Timeline.dispatches_eq_nil_iff.mp h.waiting task hmem
  have hplay : p.score.playTask = some task.id := (h.playTask_eq_some_iff hmem).mpr hdispatch
  have hleft : (p.score.timeline.cancel task.id).2.tasks = [] := by
    obtain ⟨only, honly⟩ := List.length_eq_one_iff.mp
      (Nat.le_antisymm h.size_le (List.length_pos_of_mem hmem))
    rw [honly, List.mem_singleton] at hmem
    unfold Timeline.cancel
    rw [honly, hmem]
    simp
  let spent : Performance ρ :=
    { p with
      score := { p.score with playTask := none, timeline := (p.score.timeline.cancel task.id).2 } }
  have hspent : start.Sparse spent.score := by
    refine ⟨⟨⟨?_, ?_⟩, ?_⟩, ?_, h.rewound⟩
    . change (p.score.timeline.cancel task.id).2.tasks.Pairwise _
      rw [hleft]
      exact .nil
    . intro other hother
      change other ∈ (p.score.timeline.cancel task.id).2.tasks at hother
      rw [hleft] at hother
      exact nomatch hother
    . change (Timeline.ticks _).map _ = []
      unfold Timeline.ticks
      rw [hleft]
      rfl
    . exact Timeline.dispatches_cancel h.waiting task.id
  cases haction : task.action with
  | dispatch =>
    rw [haction] at hdispatch
    contradiction
  | tick =>
    rw [release_tick clock haction]
    dsimp only
    rw [if_pos hplay]
    split
    . exact next_sparse clock hsingle hspent
    . exact ⟨hspent, Nat.le_succ _⟩

theorem runDue_sparse (clock : Clock ρ) (hsingle : start.IsSingle) {p : Performance ρ}
    (h : start.Sparse p.score)
    : start.Sparse (p.runDue clock).2.score
        ∧ (p.runDue clock).2.score.events.size ≤ p.score.events.size + 1 := by
  -- there is one task at most, so no more than one fires
  have hlimit : p.score.timeline.size = 0 ∨ p.score.timeline.size = 1 := by
    have := h.size_le
    omega
  unfold runDue fireDue
  dsimp only
  change start.Sparse (fireDueBefore _ _ _ p.score.timeline.size _).2.score
    ∧ (fireDueBefore _ _ _ p.score.timeline.size _).2.score.events.size ≤ _
  obtain hnone | hone := hlimit
  . rw [hnone]
    exact ⟨h, Nat.le_succ _⟩
  . rw [hone]
    cases hpop : (p.read clock).2.score.timeline.popDue? (p.read clock).1
        (p.read clock).2.score.timeline.watermark with
    | none =>
      rw [fireDueBefore_of_none hpop]
      exact ⟨h, Nat.le_succ _⟩
    | some popped =>
      obtain ⟨hmem, _⟩ := Timeline.popDue?_removes hpop
      rw [fireDueBefore_of_some hpop]
      exact release_sparse clock hsingle (p := (p.read clock).2) h hmem

end Performance

end Narrative
