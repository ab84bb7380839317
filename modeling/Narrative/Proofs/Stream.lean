import Narrative.Proofs.Coupling
import Narrative.Proofs.Frame
import Narrative.Proofs.Sitting
import Narrative.Proofs.Source

/-!
This module contains the stream of events that a score gives: how its events are numbered over all
that is taken out of the score and what is left in it, and when they occurred, in terms of what the
clocks read. What is read is noted in the source of a second run, which goes on as the first one
does.
-/

namespace Narrative

variable {ρ : Type}

/--
The events are numbered one by one up to `count`, and they occurred one after another if the
readings never go back.
-/
structure InOrder (events : List Event) (count : Nat) (readings : List Instant) : Prop where
  numbers : events.map (·.number) = List.range' 1 count
  times : readings.Pairwise (· ≤ ·) → (events.map (·.occurredAt)).Pairwise (· ≤ ·)

/--
`p` plays as `q` does and takes note of the time. The events so far, those that left the score and
those in it, are numbered one by one and go on from `before`, and each of them occurred at a
reading, in the order of the readings.
-/
structure Streamed (before drained : List Event) (p : Performance (Noted ρ)) (q : Performance ρ) :
    Prop where
  score : q.score = p.score
  source : q.source = p.source.source
  numbers : (drained ++ q.score.events.toList).map (·.number) = List.range' 1 q.score.eventCount
  times : ((drained ++ q.score.events.toList).map (·.occurredAt)).Sublist p.source.readings
  grows : before <+: drained ++ q.score.events.toList

namespace Streamed

variable {before drained : List Event} {p : Performance (Noted ρ)} {q : Performance ρ}

theorem log_record (clock : Clock ρ) (sequenceId : String) (step : Step)
    : drained ++ (q.record clock sequenceId step).score.events.toList
        =
      drained ++ q.score.events.toList
        ++ [⟨q.score.eventCount + 1, (q.read clock).1, sequenceId, step⟩] := by
  rw [List.append_assoc]
  exact congrArg (drained ++ ·) Array.toList_push

theorem inOrder (h : Streamed before drained p q)
    : InOrder (drained ++ q.score.events.toList) q.score.eventCount p.source.readings :=
  ⟨h.numbers, fun hreadings => hreadings.sublist h.times⟩

/--
A change of both to what is not recorded.
-/
theorem change (h : Streamed before drained p q) {s : Score} (hevents : s.events = p.score.events)
    (hcount : s.eventCount = p.score.eventCount)
    : Streamed before drained { p with score := s } { q with score := s } := by
  rw [← h.score] at hevents hcount
  refine ⟨rfl, h.source, ?_, ?_, ?_⟩
  . rw [hevents, hcount]
    exact h.numbers
  . rw [hevents]
    exact h.times
  . rw [hevents]
    exact h.grows

theorem read (h : Streamed before drained p q) (clock : Clock ρ)
    : (q.read clock).1 = (p.read clock.noted).1
        ∧ Streamed before drained (p.read clock.noted).2 (q.read clock).2 := by
  unfold Performance.read Clock.noted
  dsimp only
  rw [h.source]
  exact ⟨rfl, h.score, rfl, h.numbers, h.times.trans (List.sublist_append_left _ _), h.grows⟩

theorem record (h : Streamed before drained p q) (clock : Clock ρ) (sequenceId : String)
    (step : Step)
    : Streamed before drained (p.record clock.noted sequenceId step)
        (q.record clock sequenceId step) := by
  obtain ⟨hnow, hread⟩ := h.read clock
  have hnext : List.range' 1 (q.score.eventCount + 1)
      = List.range' 1 q.score.eventCount ++ [q.score.eventCount + 1] := by
    rw [List.range'_1_concat, Nat.add_comm 1]
  constructor
  . unfold Performance.record
    dsimp only
    rw [hnow, hread.score]
  . exact hread.source
  . rw [log_record, List.map_append, h.numbers]
    exact hnext.symm
  . rw [log_record, List.map_append, hnow]
    exact h.times.append (List.Sublist.refl _)
  . rw [log_record]
    exact h.grows.trans (List.prefix_append _ _)

theorem postpone (h : Streamed before drained p q) (clock : Clock ρ) (sequenceId : String)
    (step : Step)
    : Streamed before drained (p.postpone clock.noted sequenceId step)
        (q.postpone clock sequenceId step) := by
  obtain ⟨hnow, hread⟩ := h.read clock
  unfold Performance.postpone
  dsimp only
  rw [hnow, hread.score]
  exact hread.change rfl rfl

theorem steer (h : Streamed before drained p q) (step : Step)
    : Streamed before drained { p with score := p.score.steer step }
        { q with score := q.score.steer step } := by
  rw [h.score]
  obtain ⟨_, _, _, hsteer⟩ := p.score.steer_eq step
  rw [hsteer]
  exact h.change rfl rfl

theorem scheduleTick (h : Streamed before drained p q) (clock : Clock ρ)
    : Streamed before drained (p.scheduleTick clock.noted) (q.scheduleTick clock) := by
  obtain ⟨hnow, hread⟩ := h.read clock
  unfold Performance.scheduleTick
  dsimp only
  rw [hnow, hread.score]
  obtain ⟨_, _, hschedule⟩ :=
    (p.read clock.noted).2.score.scheduleTick_eq (p.read clock.noted).1
  rw [hschedule]
  exact hread.change rfl rfl

theorem draw [RandomSource ρ] (h : Streamed before drained p q) (index : Nat)
    : (p.draw? index = none ∧ q.draw? index = none)
        ∨ ∃ sequenceId step p' q',
            p.draw? index = some (sequenceId, step, p')
              ∧ q.draw? index = some (sequenceId, step, q')
              ∧ Streamed before drained p' q' := by
  unfold Performance.draw?
  rw [h.score, h.source]
  cases p.score.sequences[index]? with
  | none => exact Or.inl ⟨rfl, rfl⟩
  | some sequence =>
    have hnoted : p.source = ⟨p.source.source, p.source.readings⟩ := rfl
    rw [Option.bind_some, Option.bind_some, hnoted,
      Sequence.next?_seenBy (RandomSource.seenBy_noted p.source.readings)]
    cases sequence.next? p.source.source with
    | none => exact Or.inl ⟨rfl, rfl⟩
    | some given =>
      obtain ⟨step, after, left⟩ := given
      have hdrawn := h.change (s := { p.score with sequences := p.score.sequences.set index after })
        rfl rfl
      exact Or.inr ⟨_, _, _, _, rfl, rfl, rfl, rfl, hdrawn.numbers, hdrawn.times, hdrawn.grows⟩

end Streamed

variable [RandomSource ρ]

theorem coupled_streamed (clock : Clock ρ) (before drained : List Event)
    : Performance.Coupled clock.noted clock (fun _ => False) (Streamed before drained) where
  draw h _ := h.draw _
  conceal _ _ := False.elim
  postpone sequenceId step h := h.postpone clock sequenceId step
  carryOut sequenceId step h := (h.record clock sequenceId step).steer step

namespace Streamed

variable {before drained : List Event} {p : Performance (Noted ρ)} {q : Performance ρ}

theorem fire (h : Streamed before drained p q) (clock : Clock ρ) (sequenceId : String) (step : Step)
    : Streamed before drained (Performance.fire clock.noted sequenceId step p)
        (Performance.fire clock sequenceId step q) := by
  apply (coupled_streamed clock before drained).dispatch Performance.maxDepth sequenceId step h

theorem start (h : Streamed before drained p q) (clock : Clock ρ) (index : Nat)
    : Streamed before drained (p.advance clock.noted (Performance.fire clock.noted) index).2
        (q.advance clock (Performance.fire clock) index).2 :=
  ((coupled_streamed clock before drained).start index not_false h).2

theorem advanceCurrent (h : Streamed before drained p q) (clock : Clock ρ)
    : Streamed before drained (p.advanceCurrent clock.noted).2 (q.advanceCurrent clock).2 := by
  unfold Performance.advanceCurrent
  rw [h.score]
  cases p.score.current with
  | none => exact h
  | some index =>
    dsimp only
    split
    . exact h
    . exact h.start clock index

theorem next (h : Streamed before drained p q) (clock : Clock ρ)
    : Streamed before drained (p.next clock.noted).2 (q.next clock).2 := by
  have hchosen : Streamed before drained { p with score := p.score.choose }
      { q with score := q.score.choose } := by
    rw [h.score]
    obtain ⟨_, _, hchoose⟩ := p.score.choose_eq
    rw [hchoose]
    exact h.change rfl rfl
  have hplayed := hchosen.advanceCurrent clock
  unfold Performance.next
  dsimp only
  rw [hplayed.score]
  split
  . exact hplayed.scheduleTick clock
  . exact hplayed

theorem request (h : Streamed before drained p q) (clock : Clock ρ)
    : Streamed before drained (p.request clock.noted).2 (q.request clock).2 := by
  obtain ⟨hnow, hread⟩ := h.read clock
  unfold Performance.request
  dsimp only
  rw [hnow, hread.score]
  split
  . exact hread
  . apply next
    exact hread.change rfl rfl

theorem play (h : Streamed before drained p q) (clock : Clock ρ)
    : Streamed before drained (p.play clock.noted).2 (q.play clock).2 := by
  unfold Performance.play
  rw [h.score]
  apply next
  exact h.change rfl rfl

theorem fireTask (h : Streamed before drained p q) (clock : Clock ρ) (task : Timeline.Task)
    : Streamed before drained (p.fireTask clock.noted task) (q.fireTask clock task) := by
  unfold Performance.fireTask
  cases task.action with
  | dispatch step sequenceId => exact h.fire clock sequenceId step
  | tick =>
    have hticked {p : Performance (Noted ρ)} {q : Performance ρ} (h : Streamed before drained p q)
        : Streamed before drained (if p.score.playing then (p.next clock.noted).2 else p)
            (if q.score.playing then (q.next clock).2 else q) := by
      rw [h.score]
      split
      . exact h.next clock
      . exact h
    have hplayTask : q.score.playTask = p.score.playTask := congrArg Score.playTask h.score
    dsimp only
    rw [hplayTask]
    split
    . apply hticked
      rw [h.score]
      exact h.change rfl rfl
    . exact hticked h

theorem fireDueBefore (h : Streamed before drained p q) (clock : Clock ρ) (now : Instant)
    (mark limit : Nat)
    : Streamed before drained (p.fireDueBefore clock.noted now mark limit).2
        (q.fireDueBefore clock now mark limit).2 := by
  induction limit generalizing p q with
  | zero => exact h
  | succ limit ih =>
    unfold Performance.fireDueBefore
    rw [h.score]
    cases p.score.timeline.popDue? now mark with
    | none => exact h
    | some popped =>
      obtain ⟨task, timeline⟩ := popped
      apply ih
      apply fireTask
      exact h.change rfl rfl

theorem runDue (h : Streamed before drained p q) (clock : Clock ρ)
    : Streamed before drained (p.runDue clock.noted).2 (q.runDue clock).2 := by
  obtain ⟨hnow, hread⟩ := h.read clock
  unfold Performance.runDue Performance.fireDue
  dsimp only
  rw [hnow, hread.score]
  apply hread.fireDueBefore

theorem select (h : Streamed before drained p q) (clock : Clock ρ) (index : Nat)
    (atDate : Option Instant) (autoStart : Bool)
    : Streamed before drained
        (p.select clock.noted (Performance.fire clock.noted) index atDate autoStart).2
        (q.select clock (Performance.fire clock) index atDate autoStart).2 := by
  have hselected : Streamed before drained { p with score := p.score.select index atDate }
      { q with score := q.score.select index atDate } := by
    rw [h.score]
    exact h.change rfl rfl
  unfold Performance.select
  dsimp only
  cases autoStart with
  | false => exact hselected
  | true => exact hselected.start clock index

theorem perform (h : Streamed before drained p q) (clock : Clock ρ) {operation : Operation}
    (hkeeps : operation.drains = false)
    : Streamed before drained (p.perform clock.noted operation) (q.perform clock operation) := by
  cases operation with
  | next => exact h.next clock
  | request => exact h.request clock
  | play => exact h.play clock
  | stop =>
    obtain ⟨_, _, hstop⟩ := p.score.stop_eq
    unfold Performance.perform
    dsimp only
    rw [h.score, hstop]
    exact h.change rfl rfl
  | runDue => exact h.runDue clock
  | playSequence id =>
    rw [Performance.perform_playSequence, Performance.perform_playSequence, h.score]
    split
    . exact h
    . apply start
      exact h.change rfl rfl
  | setSequence id atDate autoStart =>
    rw [Performance.perform_setSequence, Performance.perform_setSequence, h.score]
    split
    . exact h
    . apply h.select
  | reset =>
    unfold Performance.perform
    dsimp only
    rw [h.score]
    exact h.change rfl rfl
  | takeEvents => contradiction
  | clearEvents => contradiction

end Streamed

namespace Turn

def noted : Turn ρ → Turn (Noted ρ)
  | .act clock operation => .act clock.noted operation
  | .add part => .add part
  | .init => .init

/--
The turn throws events away.
-/
def clears : Turn ρ → Bool
  | .act _ .clearEvents => true
  | _ => false

/--
The events that the host is given in the turn.
-/
def batch (turn : Turn ρ) (c : Chronicle ρ) : List Event :=
  match turn with
  | .act _ .takeEvents => c.score.takeEvents.1
  | _ => []

end Turn

def Player.Action.turn : Player.Action ρ → Turn ρ
  | .request clock => .act clock .request
  | .play clock => .act clock .play
  | .stop => .act (Clock.held default) .stop
  | .runDue clock => .act clock .runDue
  | .drain => .act (Clock.held default) .takeEvents

namespace Chronicle

def batches (turns : List (Turn ρ)) (c : Chronicle ρ) : List (List Event) :=
  match turns with
  | [] => []
  | turn :: turns => turn.batch c :: batches turns (c.take turn)

/--
The run in which note is taken of all that the clocks read.
-/
def noted (now : Instant) (parts : List Part) (source : ρ) (turns : List (Turn ρ)) :
    Chronicle (Noted ρ) :=
  (opening now parts (Noted.mk source [])).run (turns.map Turn.noted)

def readings (c : Chronicle (Noted ρ)) : List Instant :=
  c.performance.source.readings

theorem opening_streamed {ρ : Type} (now : Instant) (parts : List Part) (source : ρ)
    : Streamed [] (opening now parts source).drained
        (opening now parts (Noted.mk source [])).performance
        (opening now parts source).performance := by
  obtain ⟨_, _, _, _, _, _, _, h⟩ := Score.assembled_eq now parts
  unfold opening
  rw [h]
  exact ⟨rfl, rfl, rfl, List.Sublist.refl _, List.nil_prefix⟩

theorem take_streamed (turn : Turn ρ) {before : List Event} {n : Chronicle (Noted ρ)}
    {c : Chronicle ρ} (h : Streamed before c.drained n.performance c.performance)
    : Streamed before (c.take turn).drained (n.take turn.noted).performance
        (c.take turn).performance := by
  cases turn with
  | act clock operation =>
    cases hdrains : operation.drains with
    | true =>
      -- what leaves the score stays in the record
      have hlog : c.log ++ [] = c.log := List.append_nil _
      have hcleared : Streamed before c.log { n.performance with score := n.score.clearEvents }
          { c.performance with score := c.score.clearEvents } := by
        refine ⟨congrArg Score.clearEvents h.score, h.source, ?_, ?_, ?_⟩
        . exact (congrArg _ hlog).trans h.numbers
        . exact hlog.symm ▸ h.times
        . exact hlog.symm ▸ h.grows
      unfold take act Turn.noted
      dsimp only
      rw [if_pos hdrains, Performance.perform_of_drains _ hdrains,
        Performance.perform_of_drains _ hdrains]
      exact hcleared
    | false =>
      unfold take act Turn.noted
      dsimp only
      rw [if_neg (Bool.eq_false_iff.mp hdrains)]
      exact h.perform clock hdrains
  | add part =>
    obtain ⟨_, _, _, _, _, _, _, hadd⟩ := n.performance.score.add_eq part
    unfold take score Turn.noted
    dsimp only
    rw [h.score, hadd]
    exact h.change rfl rfl
  | init =>
    unfold take score Turn.noted
    dsimp only
    rw [h.score]
    exact h.change rfl rfl

theorem run_streamed (turns : List (Turn ρ)) {before : List Event} {n : Chronicle (Noted ρ)}
    {c : Chronicle ρ} (h : Streamed before c.drained n.performance c.performance)
    : Streamed before (c.run turns).drained (n.run (turns.map Turn.noted)).performance
        (c.run turns).performance := by
  induction turns generalizing n c with
  | nil => exact h
  | cons turn turns ih => exact ih (take_streamed turn h)

theorem take_drained (turn : Turn ρ) (c : Chronicle ρ)
    : (c.take turn).drained
        =
      c.drained ++ if turn.clears then c.score.events.toList else turn.batch c := by
  cases turn with
  | act clock operation =>
    cases operation with
    | takeEvents => rfl
    | clearEvents => rfl
    | _ => exact (List.append_nil _).symm
  | _ => exact (List.append_nil _).symm

theorem take_drained_of_not_clears {turn : Turn ρ} (hturn : turn.clears = false) (c : Chronicle ρ)
    : (c.take turn).drained = c.drained ++ turn.batch c := by
  rw [take_drained, hturn]
  rfl

theorem take_batch_sublist (turn : Turn ρ) (c : Chronicle ρ)
    : (c.drained ++ turn.batch c).Sublist (c.take turn).drained := by
  rw [take_drained]
  apply List.Sublist.append_left
  split
  . next hclears =>
    unfold Turn.clears at hclears
    split at hclears
    . exact List.nil_sublist _
    . contradiction
  . exact List.Sublist.refl _

/--
What the host was given is a part of what left the score, and all of it unless events are thrown
away.
-/
theorem run_batches (turns : List (Turn ρ)) (c : Chronicle ρ)
    : (c.drained ++ (c.batches turns).flatten).Sublist (c.run turns).drained
        ∧ ((∀ turn ∈ turns, turn.clears = false) →
            c.drained ++ (c.batches turns).flatten = (c.run turns).drained) := by
  induction turns generalizing c with
  | nil =>
    have hsame : c.drained ++ (c.batches []).flatten = c.drained := List.append_nil _
    rw [hsame]
    exact ⟨List.Sublist.refl _, fun _ => rfl⟩
  | cons turn turns ih =>
    obtain ⟨hpart, hall⟩ := ih (c.take turn)
    rw [batches, List.flatten_cons, ← List.append_assoc]
    constructor
    . exact ((c.take_batch_sublist turn).append_right _).trans hpart
    . intro hturns
      rw [List.forall_mem_cons] at hturns
      rw [← take_drained_of_not_clears hturns.1]
      exact hall hturns.2

end Chronicle

theorem Sitting.run_eq (actions : List (Player.Action ρ)) {s : Sitting ρ} {c : Chronicle ρ}
    (hperformance : s.player.performance = c.performance) (hdrained : s.drained = c.drained)
    : let after := c.run (actions.map Player.Action.turn)
      (s.run actions).player.performance = after.performance
        ∧ (s.run actions).drained = after.drained := by
  induction actions generalizing s c with
  | nil => exact ⟨hperformance, hdrained⟩
  | cons action actions ih =>
    apply ih
    . cases action with
      | request clock => exact congrArg (fun p => (p.request clock).2) hperformance
      | play clock => exact congrArg (fun p => (p.play clock).2) hperformance
      | stop => exact congrArg (fun p => { p with score := p.score.stop }) hperformance
      | runDue clock => exact congrArg (fun p => (p.runDue clock).2) hperformance
      | drain => exact congrArg (fun p => { p with score := p.score.clearEvents }) hperformance
    . cases action with
      | drain =>
        change s.drained ++ s.player.performance.score.events.toList
          = c.drained ++ c.performance.score.events.toList
        rw [hdrained, hperformance]
      | _ => exact hdrained

/--
The player counts what was drained from it.
-/
theorem Sitting.run_steps (actions : List (Player.Action ρ)) {s : Sitting ρ}
    (h : s.player.steps = s.drained.length)
    : (s.run actions).player.steps = (s.run actions).drained.length := by
  induction actions generalizing s with
  | nil => exact h
  | cons action actions ih =>
    apply ih
    cases action with
    | drain =>
      change s.player.steps + s.player.drain.1.length = (s.drained ++ s.player.drain.1).length
      rw [h, List.length_append]
    | _ => exact h

namespace Chronicle

/--
However a host plays a score and whenever it takes the events out, they come in the order of their
numbers, none is missing and none comes twice, and what has come stays. Events that are thrown away
keep their numbers. If no clock is read at an earlier time than the one before, then no event
occurred earlier than the one before. So it is in the sittings of a player, which has counted as
many steps as it gave.
-/
theorem run_stream_in_order (now : Instant) (parts : List Part) (source : ρ)
    (turns later : List (Turn ρ)) (actions : List (Player.Action ρ))
    : let start := opening now parts source
      let c := start.run turns
      let n := noted now parts source turns
      let stream := (start.batches turns).flatten ++ c.score.events.toList
      let s := (Sitting.opening now parts source).run actions
      let m := noted now parts source (actions.map Player.Action.turn)
      (n.score = c.score ∧ n.performance.source.source = c.performance.source)
        ∧ InOrder c.log c.score.eventCount n.readings
        ∧ c.log <+: (c.run later).log
        ∧ stream.Sublist c.log
        ∧ ((∀ turn ∈ turns, turn.clears = false) → stream = c.log)
        ∧ (m.score = s.score ∧ m.performance.source.source = s.player.performance.source)
        ∧ InOrder s.log s.score.eventCount m.readings
        ∧ s.player.steps = s.drained.length := by
  intro start c n stream s m
  have hstreamed (turns : List (Turn ρ))
      : Streamed [] (start.run turns).drained (noted now parts source turns).performance
          (start.run turns).performance :=
    run_streamed turns (opening_streamed now parts source)
  have hc := hstreamed turns
  obtain ⟨hpart, hall⟩ := run_batches turns start
  have hs := hstreamed (actions.map Player.Action.turn)
  obtain ⟨hperformance, hdrained⟩ :=
    Sitting.run_eq actions (s := Sitting.opening now parts source) (c := start) rfl rfl
  rw [← hperformance, ← hdrained] at hs
  refine ⟨⟨hc.score.symm, hc.source.symm⟩, hc.inOrder, ?_, hpart.append_right _, ?_,
    ⟨hs.score.symm, hs.source.symm⟩, hs.inOrder, Sitting.run_steps actions rfl⟩
  . exact (run_streamed later { hc with grows := List.prefix_refl c.log }).grows
  . intro hturns
    exact congrArg (· ++ c.score.events.toList) (hall hturns)

/--
The steps of a group are recorded at once, taken out after that, and another one is thrown away.
-/
theorem run_stream_in_order_group
    : let leaf : Step := .mk { id := 1 } []
      let group : Step := .mk { id := 2, command := .group } [leaf, leaf]
      let theme : Sequence := { id := "theme", steps := [group, leaf], repeats := true }
      let early : Clock SeededSource := Clock.held ⟨1, 0, by decide⟩
      let late : Clock SeededSource := Clock.held ⟨2, 0, by decide⟩
      let turns : List (Turn SeededSource) :=
        [.act early .next, .act early .takeEvents, .act late .play, .act late .clearEvents,
          .act late .next]
      let c := (opening default [.sequence theme] (.ofSeed 7)).run turns
      let n := noted default [.sequence theme] (.ofSeed 7) turns
      c.log.map (·.number) = [1, 2, 3, 4, 5]
        ∧ n.readings.Pairwise (· ≤ ·)
        ∧ (c.log.map (·.occurredAt)).Pairwise (· ≤ ·) := by
  intro leaf group theme early late turns
  have hnumbers : ((opening default [.sequence theme] (.ofSeed 7)).run turns).log.map (·.number)
      = [1, 2, 3, 4, 5] := by decide +kernel
  have hreadings : (noted default [.sequence theme] (.ofSeed 7) turns).readings.Pairwise (· ≤ ·) :=
    by decide +kernel
  have h := run_stream_in_order default [.sequence theme] (.ofSeed 7) turns [] []
  exact ⟨hnumbers, hreadings, h.2.1.times hreadings⟩

end Chronicle

end Narrative
