import Narrative.Proofs.Delivery
import Narrative.Proofs.Invariant

/-!
This module contains when input counts: the end of the delays that a score keeps says whether a
delayed step is still to come.
-/

namespace Narrative

namespace Score

/--
From `start` to `s`, the end of the delays was only moved to where a delayed step scheduled since is
due, whether or not that step still waits. No delayed step that waits is due behind the end.
-/
structure Gated (start s : Score) : Prop where
  nextId : start.timeline.nextId ≤ s.timeline.nextId
  below : ∀ task ∈ s.timeline.tasks, task.id < s.timeline.nextId
  covers : ∀ task ∈ s.timeline.tasks, task.action.isDispatch = true →
    ∃ stop, s.delayEnd = some stop ∧ task.due ≤ stop
  moved : s.delayEnd = start.delayEnd
    ∨ ∃ id stop, start.timeline.nextId ≤ id ∧ id < s.timeline.nextId ∧ s.delayEnd = some stop
      ∧ ∀ task ∈ s.timeline.tasks, task.id = id → task.action.isDispatch = true ∧ task.due = stop

theorem postpone_delayEnd (s : Score) (now : Instant) (sequenceId : String) (step : Step)
    : let due := now.after (s.timing.delayMs step.instruction.delay)
      ∃ stop, (s.postpone now sequenceId step).delayEnd = some stop
        ∧ due ≤ stop
        ∧ (∀ earlier, s.delayEnd = some earlier → earlier ≤ stop)
        ∧ (stop = due ∨ s.delayEnd = some stop) := by
  intro due
  refine ⟨_, rfl, ?_⟩
  cases s.delayEnd with
  | none =>
    refine ⟨Int.le_refl _, ?_, Or.inl rfl⟩
    intro earlier h
    contradiction
  | some earlier =>
    dsimp only [Instant.max]
    simp only [Option.some.injEq, forall_eq']
    by_cases hle : earlier ≤ due
    . rw [if_pos hle]
      exact ⟨Int.le_refl _, hle, Or.inl rfl⟩
    . rw [if_neg hle]
      rw [Instant.not_le, Instant.lt_iff_rank_lt] at hle
      exact ⟨Int.le_of_lt hle, Int.le_refl _, Or.inr rfl⟩

namespace Gated

variable {start s : Score}

theorem drop (h : Gated start s) {s' : Score} (hnextId : s'.timeline.nextId = s.timeline.nextId)
    (htasks : s'.timeline.tasks ⊆ s.timeline.tasks) (hdelayEnd : s'.delayEnd = s.delayEnd)
    : Gated start s' := by
  constructor
  . rw [hnextId]
    exact h.nextId
  . intro task hmem
    rw [hnextId]
    exact h.below task (htasks hmem)
  . intro task hmem
    rw [hdelayEnd]
    exact h.covers task (htasks hmem)
  . rw [hnextId, hdelayEnd]
    apply h.moved.imp_right
    rintro ⟨id, stop, hold, hnew, hstop, htask⟩
    exact ⟨id, stop, hold, hnew, hstop, fun task hmem => htask task (htasks hmem)⟩

theorem congr (h : Gated start s) {s' : Score} (htimeline : s'.timeline = s.timeline)
    (hdelayEnd : s'.delayEnd = s.delayEnd)
    : Gated start s' := by
  apply h.drop _ _ hdelayEnd
  . rw [htimeline]
  . rw [htimeline]
    exact List.Subset.refl _

theorem cancelTick (h : Gated start s) : Gated start s.cancelTick := by
  unfold Score.cancelTick
  split
  . exact h
  . exact h.drop rfl (List.filter_subset_self _) rfl

theorem schedule (h : Gated start s) {s' : Score} {due : Instant} {action : Action}
    (htimeline : s'.timeline = s.timeline.schedule due action)
    (hlater : ∀ earlier, s.delayEnd = some earlier →
      ∃ stop, s'.delayEnd = some stop ∧ earlier ≤ stop)
    (hnew : action.isDispatch = true → ∃ stop, s'.delayEnd = some stop ∧ due ≤ stop)
    (hmoved : s'.delayEnd = s.delayEnd ∨ action.isDispatch = true ∧ s'.delayEnd = some due)
    : Gated start s' := by
  have hnextId : s'.timeline.nextId = s.timeline.nextId + 1 := by
    rw [htimeline]
    rfl
  have htasks {task : Timeline.Task} (hmem : task ∈ s'.timeline.tasks)
      : task ∈ s.timeline.tasks ∨ task = ⟨s.timeline.nextId, due, action⟩ := by
    rw [htimeline] at hmem
    simpa [Timeline.schedule] using hmem
  have hstart := h.nextId
  constructor
  . omega
  . intro task hmem
    cases htasks hmem with
    | inl hold =>
      have := h.below task hold
      omega
    | inr hlast =>
      rw [hlast, hnextId]
      exact Nat.lt_succ_self _
  . intro task hmem hdispatch
    cases htasks hmem with
    | inl hold =>
      obtain ⟨earlier, hearlier, hdue⟩ := h.covers task hold hdispatch
      obtain ⟨stop, hstop, hle⟩ := hlater earlier hearlier
      exact ⟨stop, hstop, Int.le_trans hdue hle⟩
    | inr hlast =>
      rw [hlast] at hdispatch ⊢
      exact hnew hdispatch
  . cases hmoved with
    | inl hsame =>
      rw [hsame]
      apply h.moved.imp_right
      rintro ⟨id, stop, hfrom, hbelow, hstop, htask⟩
      refine ⟨id, stop, hfrom, by omega, hstop, ?_⟩
      intro task hmem hid
      cases htasks hmem with
      | inl hold => exact htask task hold hid
      | inr hlast =>
        rw [hlast] at hid
        exact absurd hid (Nat.ne_of_gt hbelow)
    | inr hmoved =>
      refine Or.inr ⟨s.timeline.nextId, due, hstart, by omega, hmoved.2, ?_⟩
      intro task hmem hid
      cases htasks hmem with
      | inl hold =>
        have := h.below task hold
        omega
      | inr hlast =>
        rw [hlast]
        exact ⟨hmoved.1, rfl⟩

theorem scheduleTick (h : Gated start s) (now : Instant) : Gated start (s.scheduleTick now) := by
  apply h.cancelTick.schedule rfl
  . intro earlier hearlier
    exact ⟨earlier, hearlier, Int.le_refl _⟩
  . intro hdispatch
    contradiction
  . exact Or.inl rfl

theorem postpone (h : Gated start s) (now : Instant) (sequenceId : String) (step : Step)
    : Gated start (s.postpone now sequenceId step) := by
  obtain ⟨stop, hstop, hdue, hlater, hmoved⟩ := s.postpone_delayEnd now sequenceId step
  apply h.schedule rfl
  . intro earlier hearlier
    exact ⟨stop, hstop, hlater earlier hearlier⟩
  . intro _
    exact ⟨stop, hstop, hdue⟩
  . rw [hstop]
    cases hmoved with
    | inl hnew => exact Or.inr ⟨rfl, congrArg some hnew⟩
    | inr hsame => exact Or.inl hsame.symm

end Gated

end Score

namespace Performance

variable {ρ : Type} [RandomSource ρ]

theorem gated_stable (start : Score)
    : Stable (fun _ => True) (fun p : Performance ρ => start.Gated p.score) where
  kept clock := {
    substep := fun _ _ => trivial
    draw := fun h _ _ => ⟨trivial, h.congr rfl rfl⟩
    postpone := fun sequenceId _ h => h.postpone _ sequenceId _
    carryOut := by
      intro p step sequenceId _ _ h
      obtain ⟨_, _, _, hsteer⟩ := (p.record clock sequenceId step).score.steer_eq step
      unfold Performance.carryOut
      dsimp
      rw [hsteer]
      exact h.congr rfl rfl
  }
  read _ h := h
  choose {p} h := by
    obtain ⟨_, _, hchoose⟩ := p.score.choose_eq
    rw [hchoose]
    exact h.congr rfl rfl
  selectAt _ h _ := h.congr rfl rfl
  enqueue h _ := h.congr rfl rfl
  trigger _ h := h.congr rfl rfl
  setPlaying h := h.congr rfl rfl
  scheduleTick now h _ := h.scheduleTick now
  stop {p} h := by
    have : start.Gated { p.score with playing := false } := h.congr rfl rfl
    exact this.cancelTick
  pop {p _ _ _ _} h hpop := by
    rw [(Timeline.popDue?_eq_some hpop).2]
    exact ⟨fun _ => trivial, h.drop rfl (List.filter_subset_self _) rfl⟩
  spend h := h.congr rfl rfl
  reset h := h.congr rfl rfl

theorem kept_triggerTime (clock : Clock ρ) (time : Option Instant)
    : Kept clock (fun _ => True) (fun p => p.score.triggerTime = time) where
  substep _ _ := trivial
  draw h _ _ := ⟨trivial, h⟩
  postpone _ _ h := h
  carryOut {p step} sequenceId _ _ h := by
    obtain ⟨_, _, _, hsteer⟩ := (p.record clock sequenceId step).score.steer_eq step
    unfold carryOut
    dsimp
    rw [hsteer]
    exact h

theorem next_triggerTime (clock : Clock ρ) (p : Performance ρ)
    : (p.next clock).2.score.triggerTime = p.score.triggerTime := by
  have hplayed : (advanceCurrent clock { p with score := p.score.choose }).2.score.triggerTime
      = p.score.triggerTime := by
    obtain ⟨_, _, hchoose⟩ := p.score.choose_eq
    unfold advanceCurrent
    rw [hchoose]
    dsimp
    split
    . split
      . rfl
      . exact (kept_triggerTime clock _).start _ rfl
    . rfl
  unfold next
  dsimp
  generalize (advanceCurrent clock { p with score := p.score.choose }).2 = played at hplayed
  split
  . obtain ⟨_, _, hschedule⟩ := played.score.scheduleTick_eq (clock.read played.source).1
    have hticked : (played.scheduleTick clock).score = played.score.scheduleTick _ := rfl
    rw [hticked, hschedule]
    exact hplayed
  . exact hplayed

end Performance

namespace Chronicle

variable {ρ : Type} [RandomSource ρ]

/--
The end of the delays is where the delayed step is due that is due last, of all that were scheduled.
-/
structure Gated (c : Chronicle ρ) : Prop where
  covers : ∀ task ∈ c.score.timeline.tasks, task.action.isDispatch = true →
    ∃ stop, c.score.delayEnd = some stop ∧ task.due ≤ stop
  attained : ∀ stop, c.score.delayEnd = some stop →
    ∃ task ∈ c.scheduled, task.action.isDispatch = true ∧ task.due = stop

omit [RandomSource ρ] in
theorem Gated.congr {c : Chronicle ρ} (h : c.Gated) {s : Score}
    (htimeline : s.timeline = c.score.timeline) (hdelayEnd : s.delayEnd = c.score.delayEnd)
    : Gated { c with performance.score := s } where
  covers := by
    have := h.covers
    rw [← htimeline, ← hdelayEnd] at this
    exact this
  attained := by
    have := h.attained
    rw [← hdelayEnd] at this
    exact this

omit [RandomSource ρ] in
theorem opening_gated (now : Instant) (parts : List Part) (source : ρ)
    : (opening now parts source).Gated := by
  obtain ⟨_, _, _, _, _, _, _, h⟩ := Score.assembled_eq now parts
  unfold opening
  rw [h]
  constructor
  . intro task hmem
    contradiction
  . intro stop hstop
    contradiction

theorem act_gated (clock : Clock ρ) (operation : Operation) {c : Chronicle ρ} (hc : c.Faithful)
    (h : c.Gated)
    : (c.act clock operation).Gated := by
  have hstart : c.score.Gated c.score :=
    ⟨Nat.le_refl _, hc.alive.ordered.below, h.covers, Or.inl rfl⟩
  have hafter := (Performance.gated_stable c.score).perform clock operation (p := c.performance)
    (fun _ => hstart.congr rfl rfl) hstart
  constructor
  . exact hafter.covers
  . intro stop hstop
    have hstop : (c.performance.perform clock operation).score.delayEnd = some stop := hstop
    cases hafter.moved with
    | inl hsame =>
      obtain ⟨task, hmem, hdispatch, hdue⟩ := h.attained stop (hsame ▸ hstop)
      exact ⟨task, List.mem_append_left _ hmem, hdispatch, hdue⟩
    | inr hmoved =>
      obtain ⟨id, stop', hfrom, hbelow, hend, htask⟩ := hmoved
      -- what an operation schedules is there when it is over
      obtain ⟨_, fresh, hleads, _⟩ :=
        (c.performance.perform_conserved clock operation hc.alive).timeline
      have hid : id ∈ fresh.map (·.id) := by
        rw [hleads.ids, List.mem_range'_1, ← hleads.nextId]
        exact ⟨hfrom, hbelow⟩
      obtain ⟨task, hmem, hid⟩ := List.mem_map.mp hid
      have hmem : task ∈ (c.performance.perform clock operation).score.timeline.tasks := by
        rw [hleads.tasks]
        exact List.mem_append_right _ hmem
      obtain ⟨hdispatch, hdue⟩ := htask task hmem hid
      rw [hend, Option.some.injEq] at hstop
      refine ⟨task, List.mem_append_right _ (List.mem_filter.mpr ⟨hmem, ?_⟩), hdispatch, ?_⟩
      . rw [decide_eq_true_eq, hid]
        exact hfrom
      . rw [hdue, hstop]

theorem take_gated (turn : Turn ρ) {c : Chronicle ρ} (hc : c.Faithful) (h : c.Gated)
    : (c.take turn).Gated := by
  cases turn with
  | act clock operation => exact act_gated clock operation hc h
  | add part =>
    obtain ⟨_, _, _, _, _, _, _, hadd⟩ := c.score.add_eq part
    unfold take
    dsimp
    rw [hadd]
    exact h.congr rfl rfl
  | init => exact h.congr rfl rfl

theorem run_gated (turns : List (Turn ρ)) {c : Chronicle ρ} (hc : c.Faithful) (h : c.Gated)
    : (c.run turns).Gated := by
  induction turns generalizing c with
  | nil => exact h
  | cons turn turns ih => exact ih (take_faithful turn hc) (take_gated turn hc h)

omit [RandomSource ρ] in
theorem Gated.isBusy_iff {c : Chronicle ρ} (h : c.Gated) (hc : c.Faithful) {now : Instant}
    (hnow : ∀ entry ∈ c.fired, entry.1 ≤ now)
    : c.score.isBusy now = true ↔ ∃ task ∈ c.score.timeline.dispatches, now < task.due := by
  unfold Score.isBusy
  constructor
  . intro hbusy
    split at hbusy
    . next stop hstop =>
      obtain ⟨task, hmem, hdispatch, hdue⟩ := h.attained stop hstop
      have hlater : now < task.due := by
        rw [hdue]
        simpa using hbusy
      have hwhere := hc.steps.subset (List.mem_filter.mpr ⟨hmem, hdispatch⟩)
      rw [List.mem_append] at hwhere
      cases hwhere with
      | inl hwaits => exact ⟨task, hwaits, hlater⟩
      | inr hfired =>
        -- what fired was due when it did, and no such reading is behind `now`
        obtain ⟨entry, hentry, htask⟩ := List.mem_map.mp (List.mem_filter.mp hfired).1
        have hdue := hc.due entry hentry
        rw [htask] at hdue
        have := Int.le_trans hdue (hnow entry hentry)
        exact absurd this (Instant.not_le.mpr hlater)
    . contradiction
  . rintro ⟨task, hmem, hlater⟩
    obtain ⟨hmem, hdispatch⟩ := List.mem_filter.mp hmem
    obtain ⟨stop, hstop, hdue⟩ := h.covers task hmem hdispatch
    rw [hstop]
    exact decide_eq_true (Int.lt_of_lt_of_le hlater hdue)

/--
At any time of a run, and seen from any instant that is not before a reading at which a task fired,
a score is busy as long as a delayed step waits that is due later. A request gives nothing then and
leaves the score as it is, and counts otherwise.
-/
theorem isBusy_iff_and_request_eq (start : Instant) (parts : List Part) (source : ρ)
    (turns : List (Turn ρ))
    : let c := (opening start parts source).run turns
      let p := c.performance
      let waits (now : Instant) : Prop := ∃ task ∈ p.score.timeline.dispatches, now < task.due
      (∀ now, (∀ entry ∈ c.fired, entry.1 ≤ now) → (p.score.isBusy now = true ↔ waits now))
        ∧ ∀ clock : Clock ρ,
            let now := (p.read clock).1
            let read := (p.read clock).2
            (∀ entry ∈ c.fired, entry.1 ≤ now) → p.score.options.allowInputDuringDelay = false →
              (waits now → p.request clock = (none, read) ∧ read.score = p.score)
                ∧ (¬waits now →
                    p.request clock
                        = Performance.next clock
                          { read with score := { p.score with triggerTime := some now } }
                      ∧ (p.request clock).2.score.triggerTime = some now) := by
  intro c p waits
  have hopening := opening_faithful start parts source
  have hc : c.Faithful := run_faithful turns hopening
  have h : c.Gated := run_gated turns hopening (opening_gated start parts source)
  have hbusy (now : Instant) (hnow : ∀ entry ∈ c.fired, entry.1 ≤ now)
      : p.score.isBusy now = true ↔ waits now :=
    h.isBusy_iff hc hnow
  refine ⟨hbusy, ?_⟩
  intro clock now read hnow hoption
  have hbusy := hbusy now hnow
  constructor
  . intro hwaits
    refine ⟨?_, rfl⟩
    have hbusy : read.score.isBusy now = true := hbusy.mpr hwaits
    have hoption : read.score.options.allowInputDuringDelay = false := hoption
    unfold Performance.request
    dsimp only
    rw [if_pos]
    rw [hoption, hbusy]
    rfl
  . intro hfree
    have hrequest : p.request clock
        = Performance.next clock
          { read with score := { p.score with triggerTime := some now } } := by
      have hbusy : read.score.isBusy now = false := by
        rw [← Bool.not_eq_true]
        exact mt hbusy.mp hfree
      unfold Performance.request
      dsimp only
      rw [if_neg]
      . rfl
      . rw [Bool.and_eq_true]
        intro h
        rw [hbusy] at h
        exact Bool.false_ne_true h.2
    refine ⟨hrequest, ?_⟩
    rw [hrequest, Performance.next_triggerTime]

end Chronicle

end Narrative
