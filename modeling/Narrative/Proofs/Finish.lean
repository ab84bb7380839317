import Narrative.Proofs.Bounds
import Narrative.Proofs.Due
import Narrative.Proofs.Ready
import Narrative.Proofs.Sitting

/-!
This module contains the end of a sitting. As soon as a player has nothing to play and no step waits,
there is nothing left that could set a sequence going again.
-/

namespace Narrative

namespace Timeline

theorem dispatches_eq_nil_iff {t : Timeline}
    : t.dispatches = [] ↔ ∀ task ∈ t.tasks, task.action.isDispatch = false := by
  unfold dispatches
  simp

theorem dispatches_cancel {t : Timeline} (h : t.dispatches = []) (id : Nat)
    : (t.cancel id).2.dispatches = [] := by
  rw [dispatches_eq_nil_iff] at *
  intro task hmem
  exact h task (mem_of_mem_cancel hmem)

theorem dispatches_schedule_tick (t : Timeline) (due : Instant)
    : (t.schedule due .tick).dispatches = t.dispatches := by
  unfold dispatches schedule
  simp [Action.isDispatch]

end Timeline

namespace Score

/--
The sequence at the top level is exhausted, or there is none, and no step waits.
-/
structure Over (s : Score) : Prop where
  queue : s.queue = []
  current : s.current = none ∨ s.current = some s.sequenceIndex
  top : ∀ index, s.topLevel? = some index → s.isExhausted index = true
  waiting : s.timeline.dispatches = []

/--
At most the tick and what the host set have changed.
-/
def Idled (start s : Score) : Prop :=
  ∃ triggerTime playing playTask timeline,
    s = { start with triggerTime, playing, playTask, timeline } ∧ timeline.dispatches = []

namespace Idled

variable {start mid s : Score}

theorem trans (h : Idled start mid) (hlast : Idled mid s) : Idled start s := by
  obtain ⟨_, _, _, _, hmid, _⟩ := h
  obtain ⟨triggerTime, playing, playTask, timeline, hs, hwaiting⟩ := hlast
  rw [hmid] at hs
  exact ⟨triggerTime, playing, playTask, timeline, hs, hwaiting⟩

theorem cancelTick (h : s.timeline.dispatches = []) : Idled s s.cancelTick := by
  unfold Score.cancelTick
  split
  . exact ⟨_, _, _, _, rfl, h⟩
  . exact ⟨_, _, _, _, rfl, Timeline.dispatches_cancel h _⟩

theorem scheduleTick (h : s.timeline.dispatches = []) (now : Instant)
    : Idled s (s.scheduleTick now) := by
  have hcancel := cancelTick h
  obtain ⟨_, _, _, _, _, hwaiting⟩ := id hcancel
  apply hcancel.trans
  refine ⟨_, _, _, _, rfl, ?_⟩
  rw [Timeline.dispatches_schedule_tick]
  simp_all

end Idled

/--
Nothing is there to play, now or later.
-/
structure Still (s : Score) : Prop where
  queue : s.queue = []
  top : ∀ index, s.topLevel? = some index → s.isExhausted index = true ∨ s.current = some index
  idle : ∀ index, s.current = some index → s.isReady index = false
  waiting : s.timeline.dispatches = []

namespace Still

variable {start s : Score}

theorem refl (h : s.Still) : Idled s s :=
  ⟨_, _, _, _, rfl, h.waiting⟩

theorem idled (h : start.Still) (hidled : Idled start s) : s.Still := by
  obtain ⟨_, _, _, _, hs, hwaiting⟩ := hidled
  rw [hs]
  exact ⟨h.queue, h.top, h.idle, hwaiting⟩

theorem choose (h : s.Still) : s.choose = s := by
  rw [choose_of_queue_eq_nil h.queue]
  split
  . rfl
  . next index htop =>
    cases h.top index htop with
    | inl hexhausted => rw [if_pos hexhausted]
    | inr hcurrent => rw [← hcurrent, ite_self]

end Still

namespace Over

variable {start s : Score}

theorem idled (h : start.Over) (hidled : Idled start s) : s.Over := by
  obtain ⟨_, _, _, _, hs, hwaiting⟩ := hidled
  rw [hs]
  exact ⟨h.queue, h.current, h.top, hwaiting⟩

theorem still (h : s.Over) : s.Still := by
  refine ⟨h.queue, fun index htop => Or.inl (h.top index htop), ?_, h.waiting⟩
  intro index hcurrent
  have hindex : s.sequenceIndex = index := by
    cases h.current with
    | inl hnone => simp [hnone] at hcurrent
    | inr hsome => simpa [hsome] using hcurrent
  by_cases hlt : s.sequenceIndex < s.sequences.length
  . apply not_ready_of_isExhausted
    exact h.top index (topLevel?_eq_some_iff.mpr ⟨hindex, hindex ▸ hlt⟩)
  . have hget : s.sequences[index]? = none := by
      rw [List.getElem?_eq_none_iff]
      omega
    unfold isReady isAble startsOver
    rw [hget]
    rfl

end Over

end Score

namespace Performance

variable {ρ : Type} [RandomSource ρ] {p : Performance ρ}

theorem advanceCurrent_of_still (clock : Clock ρ) (h : p.score.Still)
    : p.advanceCurrent clock = (none, p) := by
  cases hcurrent : p.score.current with
  | none =>
    unfold advanceCurrent
    rw [hcurrent]
  | some index => exact advanceCurrent_of_not_ready clock hcurrent (h.idle index hcurrent)

theorem next_of_still (clock : Clock ρ) (h : p.score.Still)
    : p.score.Idled (p.next clock).2.score := by
  unfold next
  rw [h.choose, advanceCurrent_of_still clock h]
  dsimp only
  split
  . exact .scheduleTick h.waiting _
  . exact h.refl

theorem request_of_still (clock : Clock ρ) (h : p.score.Still)
    : p.score.Idled (p.request clock).2.score := by
  unfold request
  dsimp only
  split
  . exact h.refl
  . have hset : p.score.Idled { p.score with triggerTime := some (p.read clock).1 } :=
      ⟨_, _, _, _, rfl, h.waiting⟩
    exact hset.trans (next_of_still clock (h.idled hset))

theorem play_of_still (clock : Clock ρ) (h : p.score.Still)
    : p.score.Idled (p.play clock).2.score := by
  have hset : p.score.Idled { p.score with playing := true } := ⟨_, _, _, _, rfl, h.waiting⟩
  exact hset.trans (next_of_still clock (h.idled hset))

omit [RandomSource ρ] in
theorem stop_of_still (h : p.score.Still) : p.score.Idled p.score.stop := by
  have hset : p.score.Idled { p.score with playing := false } := ⟨_, _, _, _, rfl, h.waiting⟩
  exact hset.trans (.cancelTick h.waiting)

theorem release_of_still (clock : Clock ρ) {task : Timeline.Task}
    (hmem : task ∈ p.score.timeline.tasks) (h : p.score.Still)
    : p.score.Idled (p.release clock task).score := by
  have htick := Timeline.dispatches_eq_nil_iff.mp h.waiting task hmem
  cases haction : task.action with
  | dispatch =>
    rw [haction] at htick
    contradiction
  | tick =>
    let playTask := if p.score.playTask = some task.id then none else p.score.playTask
    have hspent : p.score.Idled
        { p.score with playTask, timeline := (p.score.timeline.cancel task.id).2 } :=
      ⟨_, _, _, _, rfl, Timeline.dispatches_cancel h.waiting task.id⟩
    rw [release_tick clock haction]
    dsimp only
    split
    . exact hspent.trans (next_of_still clock (h.idled hspent))
    . exact hspent

theorem fireDueBefore_of_still (clock : Clock ρ) (now : Instant) (mark limit : Nat)
    (h : p.score.Still)
    : p.score.Idled (p.fireDueBefore clock now mark limit).2.score := by
  induction limit generalizing p with
  | zero => exact h.refl
  | succ limit ih =>
    cases hpop : p.score.timeline.popDue? now mark with
    | none =>
      rw [fireDueBefore_of_none hpop]
      exact h.refl
    | some popped =>
      obtain ⟨hmem, _⟩ := Timeline.popDue?_removes hpop
      have hreleased := release_of_still clock hmem h
      rw [fireDueBefore_of_some hpop]
      exact hreleased.trans (ih (h.idled hreleased))

omit [RandomSource ρ] in
theorem stop_of_untouched (h : p.score.Untouched) : p.score.stop.Untouched := by
  have hstop : p.score.stop = { p.score with playing := false } := by
    unfold Score.stop Score.cancelTick
    dsimp only
    rw [h.playTask]
  rw [hstop]
  exact ⟨h.queue, h.current, h.tasks, h.playTask, rfl, h.delayEnd⟩

theorem runDue_of_untouched (clock : Clock ρ) (h : p.score.Untouched)
    : (p.runDue clock).2.score.Untouched := by
  have hnone : (p.read clock).2.score.timeline.size = 0 := by
    change p.score.timeline.tasks.length = 0
    rw [h.tasks]
    rfl
  have hrest : (p.runDue clock).2 = (p.read clock).2 := by
    unfold runDue fireDue
    dsimp only
    rw [hnone]
    rfl
  rw [hrest]
  exact h

/--
The first request is not held back by anything.
-/
theorem request_of_untouched (clock : Clock ρ) (h : p.score.Untouched)
    : p.request clock
        =
      next clock { (p.read clock).2 with
        score := { p.score with triggerTime := some (p.read clock).1 } } := by
  have hfree : (p.read clock).2.score.isBusy (p.read clock).1 = false := by
    change p.score.isBusy _ = false
    unfold Score.isBusy
    rw [h.delayEnd]
  unfold request
  dsimp only
  rw [hfree, Bool.and_false]
  rfl

end Performance

namespace Player

variable {ρ : Type} [RandomSource ρ] {p : Player ρ}

omit [RandomSource ρ] in
theorem isFinished_iff
    : p.isFinished = true
        ↔
      (∀ sequence, p.score.currentSequence? = some sequence → sequence.exhausted = true)
        ∧ p.score.timeline.dispatches = []
        ∧ (p.started = true ∨ p.score.sequences = []) := by
  unfold isFinished
  rw [Bool.and_eq_true, Bool.and_eq_true, Bool.or_eq_true, List.isEmpty_iff, and_assoc,
    Timeline.dispatches_eq_nil_iff]
  cases p.score.currentSequence? with
  | none => simp
  | some sequence => simp

/--
How far a sitting may have come.
-/
inductive Placed (p : Player ρ) : Prop where
  | untouched (score : p.score.Untouched) (started : p.started = false)
  | steered (score : p.score.Steered)
  | ended (score : p.score.Over)

def Action.drains : Action ρ → Bool
  | .drain => true
  | _ => false

theorem perform_of_still {action : Action ρ} (hdrains : action.drains = false)
    (h : p.score.Still)
    : p.score.Idled (p.perform action).score := by
  cases action with
  | request clock => exact Performance.request_of_still clock h
  | play clock => exact Performance.play_of_still clock h
  | stop => exact Performance.stop_of_still h
  | runDue clock => exact Performance.fireDueBefore_of_still clock _ _ _ h
  | drain => contradiction

theorem perform_started (action : Action ρ) (h : p.started = true)
    : (p.perform action).started = true := by
  cases action with
  | request clock => rfl
  | play clock => rfl
  | _ => exact h

namespace Placed

theorem next (clock : Clock ρ) {q : Performance ρ} (hp : p.performance = (q.next clock).2)
    (hqueue : q.score.queue = []) (hcurrent : q.score.current = none)
    (hwaiting : q.score.timeline.dispatches = [])
    : p.Placed := by
  have hover (htop : ∀ index, q.score.topLevel? = some index → q.score.isExhausted index = true)
      : p.Placed := by
    have h : q.score.Over := ⟨hqueue, Or.inl hcurrent, htop, hwaiting⟩
    apply Placed.ended
    unfold score
    rw [hp]
    exact h.idled (Performance.next_of_still clock h.still)
  cases htop : q.score.topLevel? with
  | none => exact hover (by simp [htop])
  | some index =>
    cases hexhausted : q.score.isExhausted index with
    | true => exact hover (by simp [htop, hexhausted])
    | false =>
      have hchoose : q.score.choose = { q.score with current := some index } := by
        rw [Score.choose_of_queue_eq_nil hqueue, htop]
        simp [hexhausted]
      have hchosen : q.score.choose.Steered := by
        rw [hchoose, ← (Score.topLevel?_eq_some_iff.mp htop).1]
        exact ⟨hqueue, rfl⟩
      apply Placed.steered
      unfold score
      rw [hp]
      exact Performance.steered_steady.next_chosen clock hchosen

theorem perform (h : p.Placed) (action : Action ρ) : (p.perform action).Placed := by
  cases h with
  | untouched hscore hstarted =>
    have hwaiting : p.score.timeline.dispatches = [] := by
      unfold Timeline.dispatches
      rw [hscore.tasks]
      rfl
    cases action with
    | request clock =>
      have hrequest := congrArg Prod.snd (Performance.request_of_untouched clock hscore)
      exact .next clock hrequest hscore.queue hscore.current hwaiting
    | play clock =>
      exact .next clock (q := { p.performance with score := { p.score with playing := true } })
        rfl hscore.queue hscore.current hwaiting
    | stop => exact .untouched (Performance.stop_of_untouched hscore) hstarted
    | runDue clock => exact .untouched (Performance.runDue_of_untouched clock hscore) hstarted
    | drain =>
      refine .untouched ?_ hstarted
      exact ⟨hscore.queue, hscore.current, hscore.tasks, hscore.playTask, hscore.playing,
        hscore.delayEnd⟩
  | steered hscore =>
    apply Placed.steered
    exact Performance.steered_steady.player action (fun h => ⟨h.queue, h.current⟩) hscore
  | ended hscore =>
    apply Placed.ended
    cases hdrains : action.drains with
    | true =>
      cases action with
      | drain => exact ⟨hscore.queue, hscore.current, hscore.top, hscore.waiting⟩
      | _ => contradiction
    | false => exact hscore.idled (perform_of_still hdrains hscore.still)

omit [RandomSource ρ] in
theorem isFinished_iff (h : p.Placed)
    : p.isFinished = true ↔ p.score.Over ∧ (p.started = true ∨ p.score.sequences = []) := by
  rw [Player.isFinished_iff]
  constructor
  . rintro ⟨hexhausted, hnone, hstarted⟩
    refine ⟨?_, hstarted⟩
    cases h with
    | untouched hscore hnot =>
      refine ⟨hscore.queue, Or.inl hscore.current, ?_, hnone⟩
      intro index hindex
      have hlt := (Score.topLevel?_eq_some_iff.mp hindex).2
      cases hstarted with
      | inl hyes => simp [hnot] at hyes
      | inr hempty => simp [hempty] at hlt
    | steered hscore =>
      refine ⟨hscore.queue, Or.inr hscore.current, ?_, hnone⟩
      intro index hindex
      obtain ⟨hsame, hlt⟩ := Score.topLevel?_eq_some_iff.mp hindex
      have hget := List.getElem?_eq_getElem hlt
      rw [Score.isExhausted_eq hget]
      apply hexhausted
      unfold Score.currentSequence?
      rw [hscore.current, hsame]
      exact hget
    | ended hscore => exact hscore
  . rintro ⟨hover, hstarted⟩
    refine ⟨?_, hover.waiting, hstarted⟩
    intro sequence hcurrent
    unfold Score.currentSequence? at hcurrent
    cases hover.current with
    | inl hnone => simp [hnone] at hcurrent
    | inr hsome =>
      rw [hsome] at hcurrent
      have hlt := (List.getElem?_eq_some_iff.mp hcurrent).1
      rw [← Score.isExhausted_eq hcurrent]
      exact hover.top _ (Score.topLevel?_eq_some_iff.mpr ⟨rfl, hlt⟩)

end Placed

end Player

namespace Sitting

variable {ρ : Type} [RandomSource ρ] {start s : Sitting ρ}

omit [RandomSource ρ] in
theorem opening_placed (now : Instant) (parts : List Part) (source : ρ)
    : (opening now parts source).player.Placed :=
  .untouched (Score.assembled_untouched now parts) rfl

theorem run_placed (actions : List (Player.Action ρ)) (h : s.player.Placed)
    : (s.run actions).player.Placed := by
  induction actions generalizing s with
  | nil => exact h
  | cons action actions ih => exact ih (h.perform action)

/--
Nothing was played since `start`, and nothing will be.
-/
structure Rests (start s : Sitting ρ) : Prop where
  still : s.score.Still
  sequences : s.score.sequences = start.score.sequences
  current : s.score.current = start.score.current
  started : start.player.started = true → s.player.started = true
  log : s.log = start.log
  eventCount : s.score.eventCount = start.score.eventCount

namespace Rests

omit [RandomSource ρ] in
theorem refl (h : s.score.Still) : Rests s s :=
  ⟨h, rfl, rfl, fun h => h, rfl, rfl⟩

theorem perform (h : Rests start s) (action : Player.Action ρ) : Rests start (s.perform action) := by
  have hstarted (hstart : start.player.started = true) : (s.perform action).player.started = true :=
    Player.perform_started action (h.started hstart)
  cases hdrains : action.drains with
  | true =>
    cases action with
    | drain =>
      have hscore : (s.perform .drain).score = s.score.clearEvents := rfl
      have hdrained : (s.perform .drain).log = s.log := List.append_nil _
      refine ⟨?_, h.sequences, h.current, hstarted, hdrained.trans h.log, h.eventCount⟩
      rw [hscore]
      exact ⟨h.still.queue, h.still.top, h.still.idle, h.still.waiting⟩
    | _ => contradiction
  | false =>
    have hidled : s.score.Idled (s.perform action).score :=
      Player.perform_of_still hdrains h.still
    have hdrained : (s.perform action).drained = s.drained := by
      cases action with
      | drain => contradiction
      | _ => rfl
    have hstill := h.still.idled hidled
    obtain ⟨_, _, _, _, hscore, _⟩ := hidled
    have hlog : (s.perform action).log = s.log := by
      unfold Sitting.log
      rw [hscore, hdrained]
    refine ⟨hstill, ?_, ?_, hstarted, hlog.trans h.log, ?_⟩
    . rw [hscore]
      exact h.sequences
    . rw [hscore]
      exact h.current
    . rw [hscore]
      exact h.eventCount

theorem run (h : Rests start s) (actions : List (Player.Action ρ))
    : Rests start (s.run actions) := by
  induction actions generalizing s with
  | nil => exact h
  | cons action actions ih => exact ih (h.perform action)

omit [RandomSource ρ] in
theorem isFinished_eq (h : Rests start s) (hwaiting : start.score.timeline.dispatches = [])
    (hstarted : start.player.started = true ∨ start.score.sequences = [])
    : s.player.isFinished = start.player.isFinished := by
  have hsequences : s.player.score.sequences = start.player.score.sequences := h.sequences
  have hcurrent : s.player.score.currentSequence? = start.player.score.currentSequence? := by
    unfold Score.currentSequence?
    rw [show s.player.score.current = start.player.score.current from h.current, hsequences]
  rw [Bool.eq_iff_iff, Player.isFinished_iff, Player.isFinished_iff, hcurrent, hsequences]
  apply and_congr_right'
  exact iff_of_true ⟨h.still.waiting, hstarted.imp_left h.started⟩ ⟨hwaiting, hstarted⟩

end Rests

/--
Once a player is finished, no event is recorded any more whatever its host does, and it stays
finished.
-/
theorem run_log_of_isFinished (now : Instant) (parts : List Part) (source : ρ)
    (actions later : List (Player.Action ρ))
    (h : ((opening now parts source).run actions).player.isFinished = true)
    : let s := (opening now parts source).run actions
      (s.run later).player.isFinished = true
        ∧ (s.run later).log = s.log
        ∧ (s.run later).score.eventCount = s.score.eventCount := by
  intro s
  have hplaced : s.player.Placed := run_placed actions (opening_placed now parts source)
  obtain ⟨hover, hstarted⟩ : s.score.Over ∧ _ := hplaced.isFinished_iff.mp h
  have hlater := (Rests.refl hover.still).run later
  refine ⟨?_, hlater.log, hlater.eventCount⟩
  rw [hlater.isFinished_eq hover.waiting hstarted]
  exact h

/--
The only step is delayed, and the player is finished after it has fired.
-/
theorem run_log_of_isFinished_delayed
    : let parts : List Part :=
        [.sequence { id := "main", steps := [.mk { id := 0, delay := 1.0 } []] }]
      let late : Clock SeededSource := Clock.held ⟨9, 0, by decide⟩
      let actions : List (Player.Action SeededSource) := [.play (Clock.held default), .runDue late]
      let later : List (Player.Action SeededSource) := [.request late, .drain, .runDue late]
      let s := (opening default parts (SeededSource.ofSeed 0)).run actions
      s.player.isFinished = true ∧ s.log ≠ [] ∧ (s.run later).log = s.log := by
  intro parts late actions later s
  have h : s.player.isFinished = true := by decide +kernel
  refine ⟨h, ?_, (run_log_of_isFinished default parts (SeededSource.ofSeed 0) actions later h).2.1⟩
  rw [← List.isEmpty_eq_false_iff]
  decide +kernel

end Sitting

end Narrative
