import Narrative.Proofs.Circle
import Narrative.Proofs.Delivery

/-!
This module contains what is left to do of the steps that wait, as a price. Without automatic playback
each task that fires costs something, and only steps that go round in a circle put something back.
-/

namespace Narrative

noncomputable def Timeline.Task.price (start : Score) (task : Timeline.Task) : Nat :=
  match task.action with
  | .dispatch step _ => start.cost step
  | .tick => 1

namespace Score

variable (start : Score)

noncomputable def price (tasks : List Timeline.Task) : Nat :=
  (tasks.map (Timeline.Task.price start)).sum

/--
How many of the events are of steps that go round in a circle.
-/
noncomputable def circlings (events : List Event) : Nat :=
  (events.map fun event => start.circling event.step).sum

/--
From `before` to `after` what waits has not become dearer by more than `amount`, apart from a bonus for
each step that was recorded and goes round in a circle.
-/
def Spends (amount : Nat) (before after : Score) : Prop :=
  start.price after.timeline.tasks + start.bonus * start.circlings before.events.toList
    ≤ start.price before.timeline.tasks + amount + start.bonus * start.circlings after.events.toList

/--
The sequences are those of `start`, and they are played on demand only.
-/
structure Manual (s : Score) : Prop extends s.Alive where
  playing_eq : s.playing = false
  rewound : s.sequences.map Sequence.rewind = start.sequences.map Sequence.rewind

variable {start}

namespace Spends

variable {before mid after : Score} {amount more : Nat}

theorem refl (s : Score) : start.Spends 0 s s :=
  Nat.le_refl _

theorem mono (h : start.Spends amount before after) (hamount : amount ≤ more)
    : start.Spends more before after := by
  unfold Spends at *
  omega

theorem trans (h : start.Spends amount before mid) (hlast : start.Spends more mid after)
    : start.Spends (amount + more) before after := by
  unfold Spends at *
  omega

theorem of_eq (htimeline : after.timeline = before.timeline) (hevents : after.events = before.events)
    : start.Spends 0 before after := by
  unfold Spends
  rw [htimeline, hevents, Nat.add_zero]

end Spends

theorem price_append (tasks others : List Timeline.Task)
    : start.price (tasks ++ others) = start.price tasks + start.price others := by
  unfold price
  rw [List.map_append, List.sum_append]

theorem price_pos (start : Score) (task : Timeline.Task) : 1 ≤ task.price start := by
  unfold Timeline.Task.price
  split
  . apply cost_pos
  . exact Nat.le_refl _

/--
The price of a task is saved when it leaves the timeline.
-/
theorem price_cancel (start : Score) {s : Score} (h : s.timeline.Ordered) {task : Timeline.Task}
    (hmem : task ∈ s.timeline.tasks)
    : start.price (s.timeline.cancel task.id).2.tasks + task.price start
        = start.price s.timeline.tasks := by
  have hsum := ((h.cancel_perm hmem).map (Timeline.Task.price start)).sum_nat
  rw [List.map_cons, List.sum_cons] at hsum
  unfold price
  omega

theorem circlings_append (events others : List Event)
    : start.circlings (events ++ others) = start.circlings events + start.circlings others := by
  unfold circlings
  rw [List.map_append, List.sum_append]

end Score

namespace Performance

open Score (Spends Manual)

variable {ρ : Type} [RandomSource ρ] {clock : Clock ρ} {start : Score}

omit [RandomSource ρ] in
theorem carryOut_spends (start : Score) (clock : Clock ρ) (sequenceId : String) (step : Step)
    (p : Performance ρ)
    : start.price (p.carryOut clock sequenceId step).score.timeline.tasks
          = start.price p.score.timeline.tasks
        ∧ start.circlings (p.carryOut clock sequenceId step).score.events.toList
          = start.circlings p.score.events.toList
            + start.circling step := by
  obtain ⟨_, _, _, hsteer⟩ := (p.record clock sequenceId step).score.steer_eq step
  unfold carryOut
  dsimp only
  rw [hsteer]
  refine ⟨rfl, ?_⟩
  unfold record Score.record
  dsimp only
  rw [Array.toList_push, Score.circlings_append]
  rfl

omit [RandomSource ρ] in
theorem postpone_spends (sequenceId : String) (step : Step) (p : Performance ρ)
    : start.Spends (start.cost step) p.score (p.postpone clock sequenceId step).score := by
  have hprice (due : Instant)
      : start.price ((p.read clock).2.score.timeline.schedule due (.dispatch step sequenceId)).tasks
        = start.price p.score.timeline.tasks + start.cost step := by
    unfold Timeline.schedule
    rw [Score.price_append]
    rfl
  unfold Spends postpone Score.postpone
  dsimp only
  rw [hprice]
  exact Nat.le_refl _

omit [RandomSource ρ] in
theorem execute_spends (sequenceId : String) {step : Step} {fire : Firing ρ} {p : Performance ρ}
    (hfire : start.Spends (start.cost step - 1) p.score (fire sequenceId step p).score)
    : start.Spends (start.cost step) p.score (execute clock fire sequenceId step p).score := by
  unfold execute
  split
  . apply postpone_spends
  . exact hfire.mono (Nat.sub_le _ _)

/--
The sequences of `start`, however far they have been played.
-/
abbrev Rewound (start : Score) (p : Performance ρ) : Prop :=
  p.score.sequences.map Sequence.rewind = start.sequences.map Sequence.rewind

theorem steady_rewound (start : Score) : Steady (fun _ => True) (Rewound (ρ := ρ) start) :=
  (stable_rewound (start.sequences.map Sequence.rewind)).toSteady

theorem given_of_rewound {p : Performance ρ} (h : Rewound start p) {index : Nat}
    {sequence after : Sequence} {step : Step} {source : ρ}
    (hget : p.score.sequences[index]? = some sequence)
    (hnext : sequence.next? p.source = some (step, after, source))
    : step ∈ start.stepsAt index
        ∧ Rewound start ⟨{ p.score with sequences := p.score.sequences.set index after }, source⟩ := by
  rw [Score.stepsAt_of_rewound h hget]
  exact ⟨Sequence.mem_steps_of_next? hnext, (map_set_eq hget (Sequence.next?_rewind hnext)).trans h⟩

theorem foldl_execute_spends (sequenceId : String) (steps : List Step) {room : Nat}
    (hfire : ∀ step, ∀ p : Performance ρ, Rewound start p →
      start.Spends (start.cost step - 1) p.score (dispatch clock room sequenceId step p).score)
    {p : Performance ρ} (h : Rewound start p)
    : start.Spends (steps.map start.cost).sum p.score
        (steps.foldl (fun p step => execute clock (dispatch clock room) sequenceId step p) p).score := by
  have hkept := (steady_rewound (ρ := ρ) start).kept clock
  induction steps generalizing p with
  | nil => exact .refl _
  | cons step steps ih =>
    rw [List.map_cons, List.sum_cons, List.foldl_cons]
    apply (execute_spends sequenceId (hfire step p h)).trans
    apply ih
    exact hkept.execute (hkept.dispatch room sequenceId trivial) trivial h

theorem advance_spends (clock : Clock ρ) {fire : Firing ρ} {index bound : Nat}
    (hfire : ∀ sequenceId step, ∀ p : Performance ρ, Rewound start p →
      start.Spends (start.cost step - 1) p.score (fire sequenceId step p).score)
    (hbound : ∀ step ∈ start.stepsAt index, start.cost step ≤ bound)
    {p : Performance ρ} (h : Rewound start p)
    : start.Spends bound p.score (p.advance clock fire index).2.score := by
  unfold advance
  split
  . exact (Spends.refl _).mono (Nat.zero_le _)
  . next sequence hget =>
    split
    . exact (Spends.refl _).mono (Nat.zero_le _)
    . next step after source hnext =>
      obtain ⟨hmem, hdrawn⟩ := given_of_rewound h hget hnext
      let drawn : Performance ρ :=
        ⟨{ p.score with sequences := p.score.sequences.set index after }, source⟩
      have hspends : start.Spends (start.cost step) drawn.score
          (execute clock fire sequence.id step drawn).score :=
        execute_spends sequence.id (hfire sequence.id step drawn hdrawn)
      exact hspends.mono (hbound step hmem)

/--
What a step that is carried out leaves to wait costs less than the step itself.
-/
theorem dispatch_spends (room : Nat) (sequenceId : String) (step : Step) {p : Performance ρ}
    (h : Rewound start p)
    : start.Spends (start.cost step - 1) p.score (dispatch clock room sequenceId step p).score := by
  induction room generalizing sequenceId step p with
  | zero => exact (Spends.refl _).mono (Nat.zero_le _)
  | succ room ih =>
    cases hgroup : step.isGroup with
    | true =>
      rw [dispatch_group _ _ _ _ _ hgroup, start.cost_of_isGroup hgroup, Nat.add_sub_cancel]
      exact foldl_execute_spends sequenceId step.substeps (fun _ _ => ih sequenceId _) h
    | false =>
      have hkept := (steady_rewound (ρ := ρ) start).kept clock
      have hcarried : Rewound start (p.carryOut clock sequenceId step) :=
        hkept.carryOut sequenceId trivial hgroup h
      obtain ⟨hprice, hcirclings⟩ := carryOut_spends start clock sequenceId step p
      rw [dispatch_single _ _ _ _ _ hgroup]
      cases hstarts : step.starts? with
      | none =>
        unfold Spends
        dsimp only
        rw [hprice, hcirclings, Nat.mul_add]
        omega
      | some index =>
        have hpos := start.cost_pos step
        have hbound (other : Step) (hmem : other ∈ start.stepsAt index)
            : start.cost other ≤ start.cost step - 1 + start.bonus * start.circling step := by
          have hless := start.cost_of_starts hgroup hstarts hmem
          omega
        have hadvanced := advance_spends clock (fun id other _ => ih id other) hbound hcarried
        unfold Spends at hadvanced ⊢
        rw [hprice, hcirclings, Nat.mul_add] at hadvanced
        dsimp only
        omega

theorem release_playing (clock : Clock ρ) (task : Timeline.Task) {p : Performance ρ}
    (hplaying : p.score.playing = false)
    : (p.release clock task).score.playing = false := by
  cases haction : task.action with
  | dispatch step sequenceId =>
    rw [release_dispatch clock haction]
    exact ((kept_delayed clock _).fire sequenceId trivial (.refl _)).playing.trans hplaying
  | tick =>
    rw [release_tick_of_not_playing clock haction hplaying]
    exact hplaying

theorem release_spends (clock : Clock ρ) (task : Timeline.Task) {p : Performance ρ}
    (hplaying : p.score.playing = false) (h : Rewound start p)
    : start.Spends (task.price start - 1)
        { p.score with timeline := (p.score.timeline.cancel task.id).2 }
        (p.release clock task).score := by
  unfold Timeline.Task.price
  cases haction : task.action with
  | dispatch step sequenceId =>
    let left : Performance ρ := { p with score.timeline := (p.score.timeline.cancel task.id).2 }
    rw [release_dispatch clock haction]
    exact dispatch_spends maxDepth sequenceId step (p := left) h
  | tick =>
    rw [release_tick_of_not_playing clock haction hplaying]
    exact .of_eq rfl rfl

/--
From `before` to `after`, as many tasks have been spent as `fired`.
-/
def Pays (start : Score) (fired : Nat) (before after : Score) : Prop :=
  start.price after.timeline.tasks + fired + start.bonus * start.circlings before.events.toList
    ≤ start.price before.timeline.tasks + start.bonus * start.circlings after.events.toList

theorem release_pays (clock : Clock ρ) {p : Performance ρ} (h : start.Manual p.score)
    {task : Timeline.Task} (hmem : task ∈ p.score.timeline.tasks)
    : start.Manual (p.release clock task).score
        ∧ Pays start 1 p.score (p.release clock task).score := by
  have hsteady := steady_rewound (ρ := ρ) start
  refine ⟨⟨(release_alive clock h.toAlive hmem).1, ?_, ?_⟩, ?_⟩
  . apply release_playing clock task h.playing_eq
  . exact hsteady.fireTask clock task (fun _ => trivial) h.rewound
  . have hspends := release_spends clock task h.playing_eq h.rewound
    have hprice := Score.price_cancel start h.ordered hmem
    have hpos := Score.price_pos start task
    unfold Spends at hspends
    unfold Pays
    dsimp only at hspends
    omega

theorem fireDueBefore_pays (now : Instant) (mark limit : Nat) {p : Performance ρ}
    (h : start.Manual p.score)
    : start.Manual (p.fireDueBefore clock now mark limit).2.score
        ∧ Pays start (p.fireDueBefore clock now mark limit).1.length p.score
            (p.fireDueBefore clock now mark limit).2.score := by
  induction limit generalizing p with
  | zero => exact ⟨h, Nat.le_refl _⟩
  | succ limit ih =>
    cases hpop : p.score.timeline.popDue? now mark with
    | none =>
      rw [fireDueBefore_of_none hpop]
      exact ⟨h, Nat.le_refl _⟩
    | some popped =>
      obtain ⟨hmem, _⟩ := Timeline.popDue?_removes hpop
      obtain ⟨hmanual, hpays⟩ := release_pays clock h hmem
      obtain ⟨hlast, hrest⟩ := ih hmanual
      rw [fireDueBefore_of_some hpop]
      refine ⟨hlast, ?_⟩
      unfold Pays at hpays hrest ⊢
      dsimp only
      rw [List.length_cons]
      omega

theorem runDue_manual {p : Performance ρ} (h : start.Manual p.score)
    : start.Manual (p.runDue clock).2.score :=
  (fireDueBefore_pays (p.read clock).1 p.score.timeline.watermark p.score.timeline.size
    (p := (p.read clock).2) h).1

theorem runDue_pays {p : Performance ρ} (h : start.Manual p.score) {now due : Instant}
    (hdue : p.score.nextDue? = some due) (hnow : due ≤ now)
    : Pays start 1 p.score (p.runDue now).2.score := by
  obtain ⟨task, hfirst, htask⟩ := Option.map_eq_some_iff.mp hdue
  have hfired : (p.fireDue now).1 ≠ [] :=
    (fireDue_settled now h.toAlive).ne_nil h.ordered (Timeline.earliest?_mem hfirst) (htask ▸ hnow)
  have hlength := List.length_pos_iff.mpr hfired
  have hpays : Pays start (p.fireDue now).1.length p.score (p.runDue now).2.score :=
    (fireDueBefore_pays now p.score.timeline.watermark p.score.timeline.size h).2
  unfold Pays at hpays ⊢
  omega

theorem request_manual {p : Performance ρ} (h : start.Manual p.score)
    : start.Manual (p.request clock).2.score := by
  have hsteady := steady_rewound (ρ := ρ) start
  refine ⟨(request_conserved clock h.toAlive).alive, ?_, hsteady.request clock h.rewound⟩
  unfold request
  dsimp only
  split
  . exact h.playing_eq
  . let triggered : Performance ρ :=
      { (p.read clock).2 with score := { p.score with triggerTime := some (p.read clock).1 } }
    exact (next_delayed clock (p := triggered) h.playing_eq).playing.trans h.playing_eq

end Performance

end Narrative
