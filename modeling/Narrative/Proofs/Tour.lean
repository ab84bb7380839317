import Mathlib.Algebra.Order.BigOperators.Group.List
import Mathlib.Algebra.Order.Group.Nat
import Narrative.Proofs.Authored
import Narrative.Proofs.Due
import Narrative.Proofs.Passes
import Narrative.Proofs.Yield

/-!
This module contains tours: the automatic playback of a sequence in order, pass by pass, until it is
exhausted and nothing waits. A tour keeps account of every leaf that its ticks have given, and each
task that fires brings it closer to its end.
-/

namespace Narrative

open Performance (maxDepth)
open Timeline (Leads owed weight)

/--
What is played from start to end: the first sequence of a score, for a number of passes.
-/
structure Tour where
  first : Sequence
  rest : List Sequence
  passes : Nat
  timing : Timing

namespace Tour

structure Valid (t : Tour) : Prop where
  authored : t.first.Authored
  shuffle : t.first.shuffle = false
  steps : t.first.steps ≠ []
  passes : t.first.limit? 0 = some t.passes
  fits : ∀ step ∈ t.first.steps, step.Fits maxDepth
  interval : 0 < Instant.micros t.timing.tickMs

def calls (t : Tour) : Nat :=
  t.passes * t.first.size

def leavesAt (t : Tour) (call : Nat) : List Step :=
  (t.first.steps[call % t.first.size]?).toList.flatMap Step.leaves

def given (t : Tour) (calls : Nat) : List Step :=
  (List.range calls).flatMap t.leavesAt

def bulk (t : Tour) : Nat :=
  (t.first.steps.map Step.size).sum

/--
What is left to do: a tick brings more than is waiting, but there are only so many.
-/
def work (t : Tour) (calls : Nat) (tasks : List Timeline.Task) : Nat :=
  (t.calls - calls) * (t.bulk + 1) + weight tasks

/--
The tour is at the advance `calls`, with the steps `written` gone from the record of the score.
-/
structure At (t : Tour) (written : List Step) (calls : Nat) (s : Score) : Prop where
  sequences : s.sequences = t.first.after 0 calls :: t.rest
  sequenceIndex : s.sequenceIndex = 0
  queue : s.queue = []
  timing : s.timing = t.timing
  playing : s.playing = true
  within : calls ≤ t.calls
  sound : ∀ task ∈ s.timeline.tasks, task.Sound
  account : (written ++ s.events.toList.map (·.step) ++ owed s.timeline.tasks).Perm (t.given calls)

/--
The tour goes on by itself: its sequence is the current one, and a tick waits.
-/
structure On (t : Tour) (written : List Step) (calls : Nat) (s : Score) : Prop
    extends At t written calls s where
  current : s.current = some 0
  alive : s.Alive

variable {t : Tour}

namespace Valid

theorem size_pos (h : t.Valid) : 0 < t.first.size :=
  List.length_pos_iff.mpr h.steps

theorem coherent (h : t.Valid) : t.first.Coherent :=
  .of_fresh h.authored.fresh h.shuffle

theorem goesOn (h : t.Valid) (calls : Nat)
    : t.first.goesOn 0 (0 + calls / t.first.size) = decide (calls < t.calls) := by
  rw [Sequence.goesOn_iff_lt h.passes, Nat.zero_add, decide_eq_decide,
    Nat.div_lt_iff_lt_mul h.size_pos]
  rfl

theorem exhausted_after (h : t.Valid) (calls : Nat)
    : (t.first.after 0 calls).exhausted = decide (t.calls ≤ calls) := by
  have hover : (t.first.repeats || (t.first.withPasses (0 + 1)).isSpent) = true := by
    rw [Nat.zero_add, Sequence.over_after_pass_iff]
    intro hrepeats least hcount
    rw [h.authored.single hrepeats] at hcount
    contradiction
  rw [Sequence.after_exhausted, hover, h.goesOn, Bool.and_true, ← decide_not, decide_eq_decide,
    Nat.not_lt]

theorem size_le_bulk {step : Step} (hmem : step ∈ t.first.steps) : step.size ≤ t.bulk :=
  List.le_sum_of_mem (List.mem_map_of_mem hmem)

theorem calls_pos (h : t.Valid) : 0 < t.calls := by
  have hgoes := h.goesOn 0
  rw [Nat.zero_div, Sequence.goesOn_base] at hgoes
  exact of_decide_eq_true hgoes.symm

end Valid

theorem given_succ (t : Tour) (calls : Nat)
    : t.given (calls + 1) = t.given calls ++ t.leavesAt calls := by
  unfold given
  rw [List.range_succ, List.flatMap_append, List.flatMap_singleton]

theorem leavesAt_add (t : Tour) (passes place : Nat)
    : t.leavesAt (passes * t.first.size + place) = t.leavesAt place := by
  unfold leavesAt
  rw [Nat.mul_add_mod_self_right]

theorem flatMap_leavesAt (t : Tour)
    : (List.range t.first.size).flatMap t.leavesAt = t.first.steps.flatMap Step.leaves := by
  have hplace : ∀ place ∈ List.range t.first.size,
      t.leavesAt place = (t.first.steps[place]?).toList.flatMap Step.leaves := by
    intro place hmem
    unfold leavesAt
    rw [Nat.mod_eq_of_lt (List.mem_range.mp hmem)]
  rw [List.flatMap_def, List.map_congr_left hplace, ← List.flatMap_def]
  unfold Sequence.size
  generalize t.first.steps = steps
  induction steps with
  | nil => rfl
  | cons step steps ih =>
    rw [List.length_cons, List.range_succ_eq_map, List.flatMap_cons, List.flatMap_cons,
      List.flatMap_map]
    simp only [List.getElem?_cons_succ, List.getElem?_cons_zero, ih]
    simp

/--
The leaves of the sequence are given over and over, pass by pass.
-/
theorem given_calls (t : Tour)
    : t.given t.calls
        =
      (List.replicate t.passes (t.first.steps.flatMap Step.leaves)).flatten := by
  unfold calls
  induction t.passes with
  | zero => simp [given]
  | succ passes ih =>
    have hpass : (List.range t.first.size).flatMap (fun place =>
        t.leavesAt (passes * t.first.size + place)) = t.first.steps.flatMap Step.leaves := by
      rw [funext (t.leavesAt_add passes), flatMap_leavesAt]
    unfold given at *
    rw [Nat.succ_mul, List.range_add, List.flatMap_append, ih, List.flatMap_map, hpass,
      List.replicate_succ', List.flatten_append, List.flatten_singleton]

namespace At

variable {written : List Step} {calls : Nat} {s : Score}

theorem topLevel? (h : t.At written calls s) : s.topLevel? = some 0 := by
  rw [Score.topLevel?_eq_some_iff, h.sequences]
  exact ⟨h.sequenceIndex, Nat.zero_lt_succ _⟩

theorem isExhausted (hvalid : t.Valid) (h : t.At written calls s)
    : s.isExhausted 0 = decide (t.calls ≤ calls) := by
  rw [← hvalid.exhausted_after, Score.isExhausted_eq (by rw [h.sequences]; rfl)]

theorem choose (hvalid : t.Valid) (h : t.At written calls s)
    (hcurrent : calls < t.calls ∨ s.current = some 0)
    : s.choose = { s with current := some 0 } := by
  rw [Score.choose_of_queue_eq_nil h.queue, h.topLevel?]
  dsimp only
  rw [h.isExhausted hvalid]
  split
  . next hover =>
    cases hcurrent with
    | inl hmore => exact absurd (of_decide_eq_true hover) (Nat.not_le.mpr hmore)
    | inr hsame => rw [hsame]
  . rfl

/--
The steps of one more advance are recorded, or wait.
-/
theorem yields (h : t.At written calls s) (hmore : calls < t.calls)
    {s' : Score} {size : Nat}
    (hyields : Score.Yields (t.leavesAt calls) size
      { s with sequences := t.first.after 0 (calls + 1) :: t.rest } s')
    : t.At written (calls + 1) s' := by
  have hsound := hyields.sound h.sound
  have haccount := hyields.account_perm h.account
  rw [← t.given_succ] at haccount
  obtain ⟨_, _, _, _, _, _, hs⟩ := hyields.frame
  rw [hs] at hsound haccount ⊢
  exact ⟨rfl, h.sequenceIndex, h.queue, h.timing, h.playing, hmore, hsound, haccount⟩

/--
A task has gone from the timeline, and what it owes is recorded, or waits.
-/
theorem fired (h : t.At written calls s) {task : Timeline.Task} {timeline : Timeline}
    (hperm : (task :: timeline.tasks).Perm s.timeline.tasks) {s' : Score} {size : Nat}
    (hyields : Score.Yields task.leaves size { s with timeline } s')
    : t.At written calls s'
        ∧ weight s'.timeline.tasks + task.size ≤ weight s.timeline.tasks + size := by
  have hsound := hyields.sound fun other hmem =>
    h.sound other (hperm.subset (List.mem_cons_of_mem _ hmem))
  have haccount := hyields.account_perm (.refl (written ++ s.events.toList.map (·.step)
    ++ owed timeline.tasks))
  have howed : (owed timeline.tasks ++ task.leaves).Perm (owed s.timeline.tasks) :=
    List.perm_append_comm.trans (Timeline.owed_perm hperm)
  have howed := howed.append_left (written ++ s.events.toList.map (·.step))
  have hweight : weight s'.timeline.tasks ≤ weight timeline.tasks + size := hyields.weight_le
  have hsame : task.size + weight timeline.tasks = weight s.timeline.tasks :=
    Timeline.weight_perm hperm
  rw [← List.append_assoc] at howed
  have haccount := (haccount.trans howed).trans h.account
  obtain ⟨_, _, _, _, _, _, hs⟩ := hyields.frame
  refine ⟨?_, by omega⟩
  rw [hs] at hsound haccount ⊢
  exact ⟨h.sequences, h.sequenceIndex, h.queue, h.timing, h.playing, h.within, hsound, haccount⟩

/--
A tick is put in the place of any other that waits.
-/
theorem scheduleTick (h : t.At written calls s) (hpaced : s.Paced) {now : Instant}
    (hnow : now ≤ Instant.last)
    : t.At written calls (s.scheduleTick now)
        ∧ (s.scheduleTick now).timeline.tasks
          = s.timeline.dispatches ++ [⟨s.timeline.nextId, now.after t.timing.tickMs, .tick⟩] := by
  have htick : (⟨s.timeline.nextId, now.after s.timing.tickMs, .tick⟩ : Timeline.Task).Sound :=
    ⟨Instant.after_le_last _ hnow, fun haction => nomatch haction⟩
  have howed : owed (s.timeline.dispatches
      ++ [⟨s.timeline.nextId, now.after s.timing.tickMs, .tick⟩]) = owed s.timeline.tasks := by
    rw [Timeline.owed_append, Timeline.dispatches, Timeline.owed_filter_isDispatch]
    exact List.append_nil _
  rw [hpaced.scheduleTick_eq, ← h.timing]
  refine ⟨⟨h.sequences, h.sequenceIndex, h.queue, h.timing, h.playing, h.within, ?_, ?_⟩, rfl⟩
  . intro task hmem
    cases List.mem_append.mp hmem with
    | inl hold => exact h.sound task (List.mem_filter.mp hold).1
    | inr hnew =>
      rw [List.mem_singleton.mp hnew]
      exact htick
  . dsimp only [Timeline.schedule]
    rw [howed]
    exact h.account

theorem cancelTick (h : t.At written calls s) (hpaced : s.Paced)
    : t.At written calls s.cancelTick
        ∧ s.cancelTick.current = s.current
        ∧ weight s.cancelTick.timeline.tasks = weight s.timeline.tasks
        ∧ s.cancelTick.timeline.dispatches = s.timeline.dispatches := by
  rw [hpaced.cancelTick_eq]
  refine ⟨⟨h.sequences, h.sequenceIndex, h.queue, h.timing, h.playing, h.within, ?_, ?_⟩, rfl,
    Timeline.weight_filter_isDispatch _, Score.dispatches_dispatches _⟩
  . exact fun task hmem => h.sound task (List.mem_filter.mp hmem).1
  . dsimp only [Timeline.dispatches]
    rw [Timeline.owed_filter_isDispatch]
    exact h.account

end At

section

variable {ρ : Type} [RandomSource ρ] {written : List Step} {calls : Nat} {now : Instant}
variable {p : Performance ρ}

theorem advanceCurrent_at (hvalid : t.Valid) (hnow : now ≤ Instant.last)
    (h : t.At written calls p.score) (hcurrent : p.score.current = some 0)
    (hmore : calls < t.calls)
    : let played := (p.advanceCurrent now).2.score
      t.At written (calls + 1) played
        ∧ played.current = some 0
        ∧ weight played.timeline.tasks ≤ weight p.score.timeline.tasks + t.bulk := by
  intro played
  have hgoes : t.first.goesOn 0 (0 + calls / t.first.size) = true := by
    rw [hvalid.goesOn, decide_eq_true hmore]
  obtain ⟨step, hstep, hnext⟩ := Recital.next?_after hvalid.size_pos hvalid.coherent hgoes p.source
  let drawn : Performance ρ :=
    { p with score := { p.score with sequences := t.first.after 0 (calls + 1) :: t.rest } }
  have hplayed : played
      = (Performance.execute now (Performance.fire now) (t.first.after 0 calls).id step drawn).score := by
    have hleft : p.score.isExhausted 0 = false := by
      rw [h.isExhausted hvalid]
      exact decide_eq_false (Nat.not_le.mpr hmore)
    have hget : p.score.sequences[0]? = some (t.first.after 0 calls) := by
      rw [h.sequences]
      rfl
    unfold played Performance.advanceCurrent Performance.advance
    rw [hcurrent]
    dsimp only
    rw [hleft, hget]
    dsimp only
    rw [hnext, h.sequences]
    rfl
  have hmem := List.mem_of_getElem? hstep
  have hleaves : t.leavesAt calls = step.leaves := by
    unfold leavesAt
    rw [hstep]
    exact List.append_nil _
  have hclock (source : ρ) : ((Clock.held now : Clock ρ).read source).1 ≤ Instant.last := hnow
  have hyields := Performance.execute_yields hclock (t.first.after 0 calls).id (hvalid.fits step hmem)
    (Performance.fire_yields hclock (t.first.after 0 calls).id (hvalid.fits step hmem) drawn)
  rw [← hplayed, ← hleaves] at hyields
  refine ⟨h.yields hmore hyields, ?_, ?_⟩
  . obtain ⟨_, _, _, _, _, _, hframe⟩ := hyields.frame
    rw [hframe]
    exact hcurrent
  . exact Nat.le_trans hyields.weight_le (Nat.add_le_add_left (Valid.size_le_bulk hmem) _)

/--
A tick advances the sequence. Once the sequence is exhausted, it only puts another tick in its place.
-/
theorem next_on (hvalid : t.Valid) (hnow : now ≤ Instant.last) (h : t.At written calls p.score)
    (hpaced : p.score.Paced) (hcurrent : calls < t.calls ∨ p.score.current = some 0)
    : let after := (p.next now).2.score
      (calls < t.calls
          ∧ t.On written (calls + 1) after
          ∧ weight after.timeline.tasks ≤ weight p.score.timeline.tasks + t.bulk)
        ∨ (calls = t.calls
          ∧ t.On written calls after
          ∧ ∃ id, after.timeline.tasks
              = p.score.timeline.dispatches ++ [⟨id, now.after t.timing.tickMs, .tick⟩]) := by
  intro after
  let chosen : Performance ρ := { p with score := { p.score with current := some 0 } }
  let played := (chosen.advanceCurrent now).2
  have hchosen : t.At written calls chosen.score :=
    ⟨h.sequences, h.sequenceIndex, h.queue, h.timing, h.playing, h.within, h.sound, h.account⟩
  have hdelayed : p.score.Delayed played.score := by
    have hdelayed := Performance.advanceChosen_delayed (Clock.held now) p
    rw [h.choose hvalid hcurrent] at hdelayed
    exact hdelayed
  have hafter : after = played.score.scheduleTick now := by
    have hplaying : played.score.playing = true := hdelayed.playing.trans h.playing
    unfold after Performance.next
    rw [h.choose hvalid hcurrent]
    dsimp only
    change (if played.score.playing = true then played.scheduleTick now else played).score = _
    rw [if_pos hplaying]
    rfl
  have halive : after.Alive := (Performance.next_paced (Clock.held now) hpaced h.playing).1
  have hpaced := hdelayed.paced hpaced
  have hsteered : played.score.current = some 0 → after.current = some 0 := by
    rw [hafter, hpaced.scheduleTick_eq]
    exact fun h => h
  by_cases hmore : calls < t.calls
  . left
    obtain ⟨hplayed, hcurrent, hweight⟩ := advanceCurrent_at hvalid hnow hchosen rfl hmore
    obtain ⟨hat, htasks⟩ := hplayed.scheduleTick hpaced hnow
    rw [← hafter] at hat htasks
    refine ⟨hmore, ⟨hat, hsteered hcurrent, halive⟩, ?_⟩
    rw [htasks, Timeline.weight_append, Timeline.dispatches, Timeline.weight_filter_isDispatch]
    exact hweight
  . right
    have hover : calls = t.calls := Nat.le_antisymm h.within (Nat.not_lt.mp hmore)
    have hplayed : played = chosen := by
      have hexhausted := hchosen.isExhausted hvalid
      rw [decide_eq_true (Nat.le_of_eq hover.symm)] at hexhausted
      unfold played Performance.advanceCurrent
      dsimp only [chosen] at hexhausted ⊢
      rw [if_pos hexhausted]
    obtain ⟨hat, htasks⟩ := hchosen.scheduleTick (hplayed ▸ hpaced) hnow
    rw [← hplayed, ← hafter] at hat htasks
    have hdispatches : played.score.timeline.dispatches = p.score.timeline.dispatches := by
      rw [hplayed]
    rw [hdispatches] at htasks
    exact ⟨hover, ⟨hat, hsteered (by rw [hplayed]), halive⟩, _, htasks⟩

/--
Work has been done, or there is none to do but to wait, and the tick is put off.
-/
def Nears (t : Tour) (now : Instant) (calls later : Nat) (start after : Timeline) : Prop :=
  t.work later after.tasks < t.work calls start.tasks
    ∨ (calls = t.calls
      ∧ later = calls
      ∧ ∃ id, after.tasks = start.dispatches ++ [⟨id, now.after t.timing.tickMs, .tick⟩])

theorem weight_retimed (timeline : Timeline) (id : Nat) (due : Instant)
    : weight (timeline.dispatches ++ [⟨id, due, .tick⟩]) = weight timeline.tasks := by
  rw [Timeline.weight_append, Timeline.dispatches, Timeline.weight_filter_isDispatch]
  rfl

namespace Nears

variable {later last : Nat} {start mid after : Timeline}

theorem work_le (h : t.Nears now calls later start after)
    : t.work later after.tasks ≤ t.work calls start.tasks := by
  cases h with
  | inl hless => exact Nat.le_of_lt hless
  | inr hidle =>
    obtain ⟨_, hsame, _, htasks⟩ := hidle
    unfold work
    rw [hsame, htasks, weight_retimed]

theorem trans (h : t.Nears now calls later start mid) (hlast : t.Nears now later last mid after)
    : t.Nears now calls last start after := by
  have hmid := h.work_le
  have hafter := hlast.work_le
  cases h with
  | inl hless => exact Or.inl (Nat.lt_of_le_of_lt hafter hless)
  | inr hidle =>
    cases hlast with
    | inl hless => exact Or.inl (Nat.lt_of_lt_of_le hless hmid)
    | inr hlater =>
      obtain ⟨hover, hsame, _, htasks⟩ := hidle
      obtain ⟨_, hlast, id, hlater⟩ := hlater
      refine Or.inr ⟨hover, hlast.trans hsame, id, ?_⟩
      have hdispatches : mid.dispatches = start.dispatches := by
        unfold Timeline.dispatches
        rw [htasks, List.filter_append, Timeline.dispatches, List.filter_filter]
        simp [Action.isDispatch]
      rw [hlater, hdispatches]

end Nears

theorem release_dispatch_on (hnow : now ≤ Instant.last) (h : t.On written calls p.score)
    {task : Timeline.Task} (hmem : task ∈ p.score.timeline.tasks)
    (hdispatch : task.action.isDispatch = true)
    : let after := (p.release now task).score
      t.On written calls after
        ∧ weight after.timeline.tasks < weight p.score.timeline.tasks := by
  intro after
  have halive : after.Alive := (Performance.release_alive (Clock.held now) h.alive hmem).1
  have hclock (source : ρ) : ((Clock.held now : Clock ρ).read source).1 ≤ Instant.last := hnow
  cases haction : task.action with
  | tick =>
    rw [haction] at hdispatch
    contradiction
  | dispatch step sequenceId =>
    let left : Performance ρ :=
      { p with score := { p.score with timeline := (p.score.timeline.cancel task.id).2 } }
    have hafter : after = (Performance.fire now sequenceId step left).score := by
      unfold after
      rw [Performance.release_dispatch _ haction]
    have hleaves := Timeline.Task.leaves_of_action haction
    have hsize := Timeline.Task.size_of_action haction
    have hyields := Performance.fire_yields hclock sequenceId ((h.sound task hmem).fits haction) left
    rw [← hafter, ← hleaves] at hyields
    obtain ⟨hat, hweight⟩ := h.fired (h.alive.ordered.cancel_perm hmem) hyields
    have hpos : 0 < step.size := by
      rw [step.size_eq]
      exact Nat.zero_lt_succ _
    refine ⟨⟨hat, ?_, halive⟩, by omega⟩
    obtain ⟨_, _, _, _, _, _, hframe⟩ := hyields.frame
    rw [hframe]
    exact h.current

theorem release_tick_on (hvalid : t.Valid) (hnow : now ≤ Instant.last)
    (h : t.On written calls p.score) {task : Timeline.Task}
    (hmem : task ∈ p.score.timeline.tasks) (htick : task.action.isDispatch = false)
    : let after := (p.release now task).score
      (calls < t.calls
          ∧ t.On written (calls + 1) after
          ∧ weight after.timeline.tasks ≤ weight p.score.timeline.tasks + t.bulk)
        ∨ (calls = t.calls
          ∧ t.On written calls after
          ∧ ∃ id, after.timeline.tasks
              = p.score.timeline.dispatches ++ [⟨id, now.after t.timing.tickMs, .tick⟩]) := by
  have hplay := (h.alive.playTask_eq_some_iff hmem).mpr htick
  let spent : Performance ρ := { p with score := p.score.cancelTick }
  have hrelease : p.release now task = (spent.next now).2 := by
    cases haction : task.action with
    | dispatch =>
      rw [haction] at htick
      contradiction
    | tick =>
      rw [Performance.release_tick _ haction]
      unfold spent Score.cancelTick
      dsimp only
      rw [hplay, if_pos rfl, if_pos h.playing]
  obtain ⟨hspent, hsame, hweight, hdispatches⟩ := h.toAt.cancelTick h.alive.toPaced
  have hnext := next_on (p := spent) hvalid hnow hspent h.alive.cancelTick
    (Or.inr (hsame.trans h.current))
  rw [← hrelease] at hnext
  dsimp only [spent] at hnext
  rw [hweight, hdispatches] at hnext
  exact hnext

theorem release_on (hvalid : t.Valid) (hnow : now ≤ Instant.last) (h : t.On written calls p.score)
    {task : Timeline.Task} (hmem : task ∈ p.score.timeline.tasks)
    : let after := (p.release now task).score
      ∃ later, t.On written later after
        ∧ t.Nears now calls later p.score.timeline after.timeline := by
  intro after
  cases hdispatch : task.action.isDispatch with
  | true =>
    obtain ⟨hon, hweight⟩ := release_dispatch_on hnow h hmem hdispatch
    exact ⟨calls, hon, Or.inl (Nat.add_lt_add_left hweight _)⟩
  | false =>
    obtain ⟨hmore, hon, hweight⟩ | ⟨hover, hon, hidle⟩ :=
      release_tick_on hvalid hnow h hmem hdispatch
    . refine ⟨calls + 1, hon, Or.inl ?_⟩
      have hcalls : t.calls - calls = (t.calls - (calls + 1)) + 1 := by omega
      have hweight : weight after.timeline.tasks ≤ _ := hweight
      unfold work
      rw [hcalls, Nat.succ_mul]
      omega
    . exact ⟨calls, hon, Or.inr ⟨hover, rfl, hidle⟩⟩

theorem fireDueBefore_on (hvalid : t.Valid) (hnow : now ≤ Instant.last)
    (h : t.On written calls p.score) (mark limit : Nat)
    : let fired := p.fireDueBefore (Clock.held now) now mark limit
      ∃ later, t.On written later fired.2.score
        ∧ (fired.1 ≠ [] → t.Nears now calls later p.score.timeline fired.2.score.timeline)
        ∧ (fired.1 = [] → later = calls ∧ fired.2 = p) := by
  induction limit generalizing calls p with
  | zero => exact ⟨calls, h, fun hfired => absurd rfl hfired, fun _ => ⟨rfl, rfl⟩⟩
  | succ limit ih =>
    cases hpop : p.score.timeline.popDue? now mark with
    | none =>
      rw [Performance.fireDueBefore_of_none hpop]
      exact ⟨calls, h, fun hfired => absurd rfl hfired, fun _ => ⟨rfl, rfl⟩⟩
    | some popped =>
      obtain ⟨task, _⟩ := popped
      obtain ⟨hmem, _⟩ := Timeline.popDue?_removes hpop
      obtain ⟨released, hreleased, hnears⟩ := release_on hvalid hnow h hmem
      obtain ⟨later, hlater, hmore, hnone⟩ := ih hreleased
      rw [Performance.fireDueBefore_of_some hpop]
      refine ⟨later, hlater, fun _ => ?_, fun hfired => nomatch hfired⟩
      by_cases hfired : ((p.release now task).fireDueBefore (Clock.held now) now mark limit).1 = []
      . obtain ⟨hsame, hrest⟩ := hnone hfired
        rw [← hsame] at hnears
        have hnears : t.Nears now calls later p.score.timeline
            ((p.release now task).fireDueBefore (Clock.held now) now mark limit).2.score.timeline := by
          rw [hrest]
          exact hnears
        exact hnears
      . exact hnears.trans (hmore hfired)

/--
How long the tick that waits could still be put off.
-/
def gap (timeline : Timeline) : Nat :=
  (timeline.ticks.map fun tick => (Instant.last.rank - tick.due.rank).toNat).sum

theorem gap_eq {timeline : Timeline} {tick : Timeline.Task} (h : timeline.ticks = [tick])
    : gap timeline = (Instant.last.rank - tick.due.rank).toNat := by
  unfold gap
  rw [h]
  rfl

theorem ticks_eq_singleton {s : Score} (h : s.Alive) {tick : Timeline.Task}
    (hmem : tick ∈ s.timeline.tasks) (htick : tick.action.isDispatch = false)
    : s.timeline.ticks = [tick] := by
  have hids := h.ticks
  rw [(h.playTask_eq_some_iff hmem).mpr htick] at hids
  obtain ⟨only, honly, _⟩ := List.map_eq_singleton_iff.mp hids
  have htick : tick ∈ s.timeline.ticks := List.mem_filter.mpr ⟨hmem, by rw [htick]; rfl⟩
  rw [honly, List.mem_singleton] at htick
  rw [honly, htick]

/--
With nothing left but to wait, the tick has been put off.
-/
theorem gap_lt (hvalid : t.Valid) (hnow : now ≤ Instant.last) {s after : Score}
    (h : t.On written calls s) (halive : after.Alive) {id : Nat}
    (htasks : after.timeline.tasks
      = s.timeline.dispatches ++ [⟨id, now.after t.timing.tickMs, .tick⟩])
    (hgone : ∀ task ∈ s.timeline.tasks, task ∈ after.timeline.tasks → now < task.due)
    {task : Timeline.Task} (hmem : task ∈ s.timeline.tasks) (hdue : task.due ≤ now)
    (hwaiting : s.timeline.dispatches ≠ [])
    : gap after.timeline < gap s.timeline := by
  -- the steps that wait are still there, so none of them was due
  have hwaits : ∀ step ∈ s.timeline.dispatches, now < step.due := by
    intro step hstep
    apply hgone step (List.mem_filter.mp hstep).1
    rw [htasks]
    exact List.mem_append_left _ hstep
  have htick : task.action.isDispatch = false := by
    rw [← Bool.not_eq_true]
    intro hdispatch
    exact Instant.not_le.mpr (hwaits task (List.mem_filter.mpr ⟨hmem, hdispatch⟩)) hdue
  have hend : now < Instant.last := by
    obtain ⟨step, hstep⟩ := List.exists_mem_of_ne_nil _ hwaiting
    exact Int.lt_of_lt_of_le (hwaits step hstep) (h.sound step (List.mem_filter.mp hstep).1).due
  have hput : now < now.after t.timing.tickMs := by
    cases Instant.lt_after_or_eq_last _ hvalid.interval with
    | inl hput => exact hput
    | inr hlast =>
      rw [hlast]
      exact hend
  have hbound := Instant.after_le_last t.timing.tickMs hnow
  have hnew : (⟨id, now.after t.timing.tickMs, .tick⟩ : Timeline.Task) ∈ after.timeline.tasks := by
    rw [htasks]
    exact List.mem_append_right _ List.mem_cons_self
  rw [gap_eq (ticks_eq_singleton halive hnew rfl), gap_eq (ticks_eq_singleton h.alive hmem htick)]
  rw [Instant.le_iff_rank_le] at hdue hbound
  rw [Instant.lt_iff_rank_lt] at hput
  dsimp only
  omega

/--
As long as something is left to be played or waits, firing what is due brings the tour closer to its
end.
-/
theorem runDue_on (hvalid : t.Valid) (hnow : now ≤ Instant.last) (h : t.On written calls p.score)
    {task : Timeline.Task} (hmem : task ∈ p.score.timeline.tasks) (hdue : task.due ≤ now)
    (hleft : calls = t.calls → p.score.timeline.dispatches ≠ [])
    : let after := (p.runDue now).2.score
      ∃ later, t.On written later after
        ∧ (t.work later after.timeline.tasks < t.work calls p.score.timeline.tasks
          ∨ (t.work later after.timeline.tasks = t.work calls p.score.timeline.tasks
            ∧ gap after.timeline < gap p.score.timeline)) := by
  intro after
  have hsettled : Performance.Settled now p.score.timeline.nextId p.score (p.fireDue now).1 after :=
    Performance.fireDue_settled (Clock.held now) h.alive
  have hfired := hsettled.ne_nil h.alive.ordered hmem hdue
  obtain ⟨later, hlater, hnears, _⟩ : ∃ later, t.On written later after
      ∧ ((p.fireDue now).1 ≠ [] → t.Nears now calls later p.score.timeline after.timeline) ∧ _ :=
    fireDueBefore_on hvalid hnow h p.score.timeline.watermark p.score.timeline.size
  refine ⟨later, hlater, ?_⟩
  cases hnears hfired with
  | inl hless => exact Or.inl hless
  | inr hidle =>
    obtain ⟨hover, hsame, id, htasks⟩ := hidle
    right
    constructor
    . unfold work
      rw [hsame, htasks, weight_retimed]
    . exact gap_lt hvalid hnow h hlater.alive htasks
        (fun _ => hsettled.lt_due h.alive.ordered) hmem hdue (hleft hover)

end

end Tour

end Narrative
