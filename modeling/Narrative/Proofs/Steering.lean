import Narrative.Proofs.Balance
import Narrative.Proofs.Carry

/-!
This module contains what moves a score from one sequence to another while steps are carried out. Only
a step that sets the sequence does, and the record tells where to.
-/

namespace Narrative

/--
The sequence that the score is led to.
-/
def Instruction.selects? (i : Instruction) : Option Nat :=
  match i.command, i.target with
  | .setSequence .., .sequence index _ => some index
  | _, _ => none

/--
Neither the step nor one under it leads the score to a sequence.
-/
def Step.Stays (step : Step) : Prop :=
  ∀ i ∈ step.instructions, i.selects? = none

namespace Score

def lastSelected? (events : List Event) : Option Nat :=
  (events.filterMap (·.step.instruction.selects?)).getLast?

theorem lastSelected?_append (events others : List Event)
    : lastSelected? (events ++ others) = (lastSelected? others).or (lastSelected? events) := by
  unfold lastSelected?
  rw [List.filterMap_append, List.getLast?_append]

theorem lastSelected?_singleton (event : Event)
    : lastSelected? [event] = event.step.instruction.selects? := by
  unfold lastSelected?
  cases hselects : event.step.instruction.selects? with
  | none => simp [hselects]
  | some index => simp [hselects]

/--
From `start` to `s` the queue is the same. The sequence at the top level and the current one are both
where the last event leads that leads anywhere, out of those recorded on the way. Without such an event
they are the same, too.
-/
structure Led (start s : Score) : Prop where
  queue : s.queue = start.queue
  cursors : ∃ recorded,
    s.events.toList = start.events.toList ++ recorded
      ∧ s.sequenceIndex = (lastSelected? recorded).getD start.sequenceIndex
      ∧ s.current = (lastSelected? recorded).or start.current

theorem steer_cursors (s : Score) (step : Step)
    : (s.steer step).queue = s.queue
        ∧ (s.steer step).events = s.events
        ∧ (s.steer step).sequenceIndex = step.instruction.selects?.getD s.sequenceIndex
        ∧ (s.steer step).current = step.instruction.selects?.or s.current := by
  unfold steer Instruction.selects? Step.command Step.target
  cases step.instruction.command with
  | setSequence => cases step.instruction.target <;> exact ⟨rfl, rfl, rfl, rfl⟩
  | _ => cases step.instruction.target <;> exact ⟨rfl, rfl, rfl, rfl⟩

namespace Led

variable {start mid s other : Score}

theorem refl (s : Score) : Led s s :=
  ⟨rfl, [], (List.append_nil _).symm, rfl, rfl⟩

theorem trans (h : Led start mid) (hlast : Led mid s) : Led start s := by
  obtain ⟨recorded, hevents, hindex, hcurrent⟩ := h.cursors
  obtain ⟨more, hmore, hindex', hcurrent'⟩ := hlast.cursors
  refine ⟨hlast.queue.trans h.queue, recorded ++ more, ?_, ?_, ?_⟩
  . rw [hmore, hevents, List.append_assoc]
  . rw [hindex', hindex, lastSelected?_append]
    cases lastSelected? more with
    | none => rfl
    | some => rfl
  . rw [hcurrent', hcurrent, lastSelected?_append, Option.or_assoc]

theorem congr (h : Led start s) (hqueue : other.queue = s.queue)
    (hevents : other.events = s.events) (hindex : other.sequenceIndex = s.sequenceIndex)
    (hcurrent : other.current = s.current)
    : Led start other := by
  refine ⟨hqueue.trans h.queue, ?_⟩
  rw [hevents, hindex, hcurrent]
  exact h.cursors

end Led

end Score

namespace Performance

open Score (Led)

variable {ρ : Type} [RandomSource ρ]

omit [RandomSource ρ] in
theorem carryOut_led (clock : Clock ρ) (sequenceId : String) (step : Step) (p : Performance ρ)
    : Led p.score (p.carryOut clock sequenceId step).score := by
  obtain ⟨hqueue, hevents, hindex, hcurrent⟩ :=
    (p.record clock sequenceId step).score.steer_cursors step
  refine ⟨hqueue, [⟨p.score.eventCount + 1, (p.read clock).1, sequenceId, step⟩], ?_, ?_, ?_⟩
  . exact (congrArg Array.toList hevents).trans Array.toList_push
  . rw [Score.lastSelected?_singleton]
    exact hindex
  . rw [Score.lastSelected?_singleton]
    exact hcurrent

theorem kept_led (clock : Clock ρ) (start : Score)
    : Kept clock (fun _ => True) (fun p : Performance ρ => Led start p.score) where
  substep _ _ := trivial
  draw h _ _ := ⟨trivial, h.congr rfl rfl rfl rfl⟩
  postpone _ _ h := h.congr rfl rfl rfl rfl
  carryOut sequenceId _ _ h := h.trans (carryOut_led clock sequenceId _ _)

theorem dispatch_led (clock : Clock ρ) (room : Nat) (sequenceId : String) (step : Step)
    (p : Performance ρ)
    : Led p.score (dispatch clock room sequenceId step p).score :=
  (kept_led clock p.score).dispatch room sequenceId trivial (.refl _)

theorem advance_led (clock : Clock ρ) (room index : Nat) (p : Performance ρ)
    : Led p.score (p.advance clock (dispatch clock room) index).2.score := by
  apply (kept_led clock p.score).advance
  . intro sequenceId step p _ hp
    exact hp.trans (dispatch_led clock room sequenceId step p)
  . exact .refl _

theorem release_led (clock : Clock ρ) {task : Timeline.Task} (p : Performance ρ)
    (h : task.action.isDispatch = true ∨ p.score.playing = false)
    : Led p.score (p.release clock task).score := by
  cases haction : task.action with
  | dispatch step sequenceId =>
    let left : Performance ρ := { p with score.timeline := (p.score.timeline.cancel task.id).2 }
    have hleft : Led p.score left.score := (Led.refl _).congr rfl rfl rfl rfl
    rw [release_dispatch clock haction]
    exact hleft.trans (dispatch_led clock maxDepth sequenceId step left)
  | tick =>
    have hplaying : p.score.playing = false := by
      cases h with
      | inl hdispatch =>
        rw [haction] at hdispatch
        contradiction
      | inr hplaying => exact hplaying
    rw [release_tick_of_not_playing clock haction hplaying]
    exact (Led.refl _).congr rfl rfl rfl rfl

theorem fireDueBefore_led (clock : Clock ρ) (now : Instant) (mark limit : Nat)
    {p : Performance ρ} (hplaying : p.score.playing = false)
    : Led p.score (p.fireDueBefore clock now mark limit).2.score := by
  induction limit generalizing p with
  | zero => exact .refl _
  | succ limit ih =>
    cases hpop : p.score.timeline.popDue? now mark with
    | none =>
      rw [fireDueBefore_of_none hpop]
      exact .refl _
    | some popped =>
      rw [fireDueBefore_of_some hpop]
      have hfired := release_playing clock popped.1 hplaying
      exact (release_led clock p (.inr hplaying)).trans (ih hfired)

theorem next_led (clock : Clock ρ) (p : Performance ρ)
    : Led p.score.choose (p.next clock).2.score := by
  have hadvanced : Led p.score.choose
      (advanceCurrent clock { p with score := p.score.choose }).2.score := by
    unfold advanceCurrent
    split
    . split
      . exact .refl _
      . exact advance_led clock maxDepth _ { p with score := p.score.choose }
    . exact .refl _
  unfold next
  dsimp only
  split
  . obtain ⟨_, _, hschedule⟩ :=
      scheduleTick_eq clock (advanceCurrent clock { p with score := p.score.choose }).2
    rw [hschedule]
    exact hadvanced.congr rfl rfl rfl rfl
  . exact hadvanced

theorem kept_stays (clock : Clock ρ) {start : Score}
    (hstays : ∀ sequence ∈ start.sequences, ∀ step ∈ sequence.steps, step.Stays)
    : Kept clock Step.Stays fun p : Performance ρ =>
        Rewound start p
          ∧ p.score.queue = start.queue
          ∧ p.score.sequenceIndex = start.sequenceIndex
          ∧ p.score.current = start.current where
  substep h hmem := fun i hi => h i (Step.instructions_subset hmem hi)
  draw h hget hnext := by
    obtain ⟨hmem, hrewound⟩ := given_of_rewound h.1 hget hnext
    exact ⟨Score.of_mem_stepsAt hstays hmem, hrewound, h.2⟩
  postpone _ _ h := h
  carryOut {p step} sequenceId hstep hgroup h := by
    have hkept := (steady_rewound (ρ := ρ) start).kept clock
    obtain ⟨hqueue, _, hindex, hcurrent⟩ :=
      (p.record clock sequenceId step).score.steer_cursors step
    rw [hstep _ step.instruction_mem] at hindex hcurrent
    exact ⟨hkept.carryOut sequenceId trivial hgroup h.1, hqueue.trans h.2.1, hindex.trans h.2.2.1,
      hcurrent.trans h.2.2.2⟩

/--
Whatever a step sets going, however deep it goes and wherever it is cut off, the queue stays and the
cursors of the score are where the last recorded step led that sets the sequence. So it is with each
task that fires and with all that an operation carries out. Where no step sets the sequence, all stays.
-/
theorem cursors_follow_record (clock : Clock ρ) (p : Performance ρ)
    : (∀ room sequenceId step, Led p.score (dispatch clock room sequenceId step p).score)
        ∧ (∀ room index, Led p.score (p.advance clock (dispatch clock room) index).2.score)
        ∧ (∀ task : Timeline.Task, task.action.isDispatch = true →
            Led p.score (p.release clock task).score)
        ∧ (p.score.playing = false → Led p.score (p.runDue clock).2.score)
        ∧ Led p.score.choose (p.next clock).2.score
        ∧ (∀ id index, p.score.findSequence id = .ok index →
            Led (p.score.enqueue index) (p.perform clock (.playSequence id)).score
              ∧ ∀ atDate autoStart,
                  Led (p.score.select index atDate)
                    (p.perform clock (.setSequence id atDate autoStart)).score)
        ∧ ((∀ sequence ∈ p.score.sequences, ∀ step ∈ sequence.steps, step.Stays) →
            ∀ room sequenceId step, step.Stays →
              let s := (dispatch clock room sequenceId step p).score
              s.queue = p.score.queue
                ∧ s.sequenceIndex = p.score.sequenceIndex
                ∧ s.current = p.score.current) := by
  refine ⟨?_, ?_, ?_, ?_, next_led clock p, ?_, ?_⟩
  . exact fun room sequenceId step => dispatch_led clock room sequenceId step p
  . exact fun room index => advance_led clock room index p
  . exact fun task hdispatch => release_led clock p (.inl hdispatch)
  . exact fireDueBefore_led clock (p.read clock).1 _ _ (p := (p.read clock).2)
  . intro id index hfind
    constructor
    . rw [perform_playSequence, hfind]
      exact advance_led clock maxDepth index { p with score := p.score.enqueue index }
    . intro atDate autoStart
      rw [perform_setSequence, hfind]
      cases autoStart with
      | false => exact .refl _
      | true => exact advance_led clock maxDepth index { p with score := p.score.select index atDate }
  . intro hstays room sequenceId step hstep
    exact ((kept_stays clock hstays).dispatch room sequenceId hstep ⟨rfl, rfl, rfl, rfl⟩).2

end Performance

end Narrative
