import Narrative.Player.Session
import Narrative.Proofs.Authored
import Narrative.Proofs.Balance
import Narrative.Proofs.Instants

/-!
This module contains how an interactive session ends. When the host has quit, the player waits for
delayed steps as long as there are any, which comes to an end unless sequences set one another going in
a circle.
-/

namespace Narrative

namespace Player

/--
What can happen in an interactive session before it ends.
-/
inductive Happening (ρ : Type) where
  | line (clock : Clock ρ)
  | due (clock : Clock ρ)
  | written

def Happening.action : Happening ρ → Action ρ
  | line clock => .request clock
  | due clock => .runDue clock
  | written => .drain

variable {ρ : Type} [RandomSource ρ]

/--
The first rounds after the host has quit, and what is written in them.
-/
def settling : (turns : Nat) → Instant → Player ρ → List Event × Player ρ
  | 0, _, p => ([], p)
  | turns + 1, now, p =>
    match p.score.nextDue? with
    | none => ([], p)
    | some due =>
      let now := now.max due
      let (events, p) := (p.runDue now).2.drain
      let (later, p) := settling turns now p
      (events ++ later, p)

def Settles (now : Instant) (p : Player ρ) : Prop :=
  ∃ turns events final, final.score.timeline.tasks = []
    ∧ ∀ more, turns ≤ more → p.settle more now = some (events, final)

omit [RandomSource ρ] in
theorem nextDue?_eq_none_iff {p : Player ρ}
    : p.score.nextDue? = none ↔ p.score.timeline.tasks = [] := by
  apply Timeline.nextDue?_eq_none_iff

theorem settle_eq (turns : Nat) (now : Instant) (p : Player ρ)
    : p.settle turns now
        =
      if (p.settling turns now).2.score.nextDue?.isNone then some (p.settling turns now)
      else none := by
  induction turns generalizing now p with
  | zero =>
    unfold settle settling
    cases hdue : p.score.nextDue? with
    | none => simp
    | some due => simp
  | succ turns ih =>
    unfold settle settling
    cases hdue : p.score.nextDue? with
    | none => simp [hdue]
    | some due =>
      dsimp only
      rw [ih]
      let left := (p.runDue (now.max due)).2.drain.2
      by_cases hend : (left.settling turns (now.max due)).2.score.nextDue?.isNone = true
      . rw [if_pos hend, if_pos hend]
      . rw [if_neg hend, if_neg hend]

theorem settling_of_empty {p : Player ρ} (h : p.score.timeline.tasks = []) (turns : Nat)
    (now : Instant)
    : p.settling turns now = ([], p) := by
  cases turns with
  | zero => rfl
  | succ turns => rw [settling, nextDue?_eq_none_iff.mpr h]

theorem settling_succ {p : Player ρ} {due : Instant} (h : p.score.nextDue? = some due) (turns : Nat)
    (now : Instant)
    : p.settling (turns + 1) now
        =
      let (events, left) := (p.runDue (now.max due)).2.drain
      let (later, final) := left.settling turns (now.max due)
      (events ++ later, final) := by
  rw [settling, h]

/--
Further rounds only add to what is written, and nothing once the timeline is empty.
-/
theorem settling_add (turns more : Nat) (now : Instant) (p : Player ρ)
    : (p.settling turns now).1 <+: (p.settling (turns + more) now).1
        ∧ ((p.settling turns now).2.score.timeline.tasks = [] →
            p.settling (turns + more) now = p.settling turns now) := by
  induction turns generalizing now p with
  | zero => exact ⟨List.nil_prefix, fun h => settling_of_empty h _ now⟩
  | succ turns ih =>
    cases hdue : p.score.nextDue? with
    | none =>
      have hempty := nextDue?_eq_none_iff.mp hdue
      rw [settling_of_empty hempty, settling_of_empty hempty]
      exact ⟨List.prefix_refl _, fun _ => rfl⟩
    | some due =>
      obtain ⟨hinitial, hsame⟩ := ih (now.max due) (p.runDue (now.max due)).2.drain.2
      rw [Nat.succ_add, settling_succ hdue, settling_succ hdue]
      refine ⟨(List.prefix_append_right_inj _).mpr hinitial, ?_⟩
      intro hempty
      dsimp only at hempty ⊢
      rw [hsame hempty]

section

variable {start : Score}

omit [RandomSource ρ] in
theorem drain_manual {p : Player ρ} (h : start.Manual p.score) : start.Manual p.drain.2.score :=
  ⟨⟨⟨h.ordered, h.ticks⟩, h.playing⟩, h.playing_eq, h.rewound⟩

theorem perform_manual (happening : Happening ρ) {p : Player ρ} (h : start.Manual p.score)
    : start.Manual (p.perform happening.action).score := by
  cases happening with
  | line clock => exact Performance.request_manual h
  | due clock => exact Performance.runDue_manual h
  | written => exact drain_manual h

/--
Each round costs something until nothing waits.
-/
theorem settling_pays (turns : Nat) (now : Instant) {p : Player ρ} (h : start.Manual p.score)
    : (p.settling turns now).2.score.timeline.tasks = []
        ∨ start.price (p.settling turns now).2.score.timeline.tasks + turns
            ≤ start.price p.score.timeline.tasks
              + start.bonus * start.circlings (p.settling turns now).1 := by
  induction turns generalizing now p with
  | zero => exact Or.inr (Nat.le_add_right _ _)
  | succ turns ih =>
    cases hdue : p.score.nextDue? with
    | none =>
      left
      rw [settling_of_empty (nextDue?_eq_none_iff.mp hdue)]
      exact nextDue?_eq_none_iff.mp hdue
    | some due =>
      let ran := (p.runDue (now.max due)).2
      have hran : start.Manual ran.score := Performance.runDue_manual h
      have hmanual : start.Manual ran.drain.2.score := drain_manual hran
      have hpays : Performance.Pays start 1 p.score ran.score :=
        Performance.runDue_pays h hdue (Instant.le_max_right now due)
      rw [settling_succ hdue]
      obtain hempty | hlater := ih (now.max due) hmanual
      . exact Or.inl hempty
      . right
        have hdrained : start.circlings ran.drain.1 = start.circlings ran.score.events.toList := rfl
        have htasks : ran.drain.2.score.timeline = ran.score.timeline := rfl
        rw [htasks] at hlater
        unfold Performance.Pays at hpays
        dsimp only
        rw [Score.circlings_append, Nat.mul_add, hdrained]
        dsimp only [ran] at *
        omega

theorem settles_iff (now : Instant) {p : Player ρ} (h : start.Manual p.score)
    : p.Settles now ↔ ∃ most, ∀ turns, start.circlings (p.settling turns now).1 ≤ most := by
  constructor
  . rintro ⟨turns, events, final, hempty, hsettle⟩
    have hlast : p.settling turns now = (events, final) := by
      have hturns := hsettle turns (Nat.le_refl _)
      rw [settle_eq] at hturns
      split at hturns
      . exact Option.some.inj hturns
      . contradiction
    refine ⟨start.circlings events, ?_⟩
    intro few
    obtain ⟨⟨more, hmore⟩, _⟩ := settling_add few turns now p
    obtain ⟨_, hsame⟩ := settling_add turns few now p
    rw [hlast] at hsame
    rw [Nat.add_comm, hsame hempty] at hmore
    dsimp only at hmore
    rw [← hmore, Score.circlings_append]
    apply Nat.le_add_right
  . rintro ⟨most, hmost⟩
    let turns := start.price p.score.timeline.tasks + start.bonus * most + 1
    have hempty : (p.settling turns now).2.score.timeline.tasks = [] := by
      obtain hempty | hlater := settling_pays turns now h
      . exact hempty
      . have hbonus := Nat.mul_le_mul_left start.bonus (hmost turns)
        dsimp only [turns] at hlater hbonus
        omega
    refine ⟨turns, (p.settling turns now).1, (p.settling turns now).2, hempty, ?_⟩
    intro more hmore
    obtain ⟨others, rfl⟩ := Nat.exists_eq_add_of_le hmore
    rw [settle_eq, (settling_add turns others now p).2 hempty, nextDue?_eq_none_iff.mpr hempty]
    rfl

omit [RandomSource ρ] in
theorem circlings_eq_zero (h : ∀ index, ¬start.LeadsBack index) (events : List Event)
    : start.circlings events = 0 := by
  unfold Score.circlings
  rw [List.sum_eq_zero_iff]
  intro count hmem
  obtain ⟨event, _, hcount⟩ := List.mem_map.mp hmem
  rw [← hcount, Score.circling, if_neg]
  rintro ⟨index, _, hback⟩
  exact h index hback

end

end Player

namespace Score

theorem Untouched.manual {s : Score} (h : s.Untouched) : s.Manual s where
  ordered := by
    constructor
    . rw [h.tasks]
      exact .nil
    . rw [h.tasks]
      exact fun _ hmem => nomatch hmem
  ticks := by
    rw [h.playTask, Timeline.ticks, h.tasks]
    rfl
  playing := by
    rw [h.playing, h.playTask]
    rfl
  playing_eq := h.playing
  rewound := rfl

end Score

namespace CommandLine.Config

variable {ρ : Type} [RandomSource ρ]

omit [RandomSource ρ] in
theorem player_untouched (config : Config) (text : String) (created : Instant) (chance : ρ)
    : (config.player text created chance).score.Untouched := by
  obtain ⟨parts, hopening, _⟩ := config.player_eq_opening text created chance
  rw [hopening]
  exact Score.assembled_untouched created parts

end CommandLine.Config

namespace Sitting

variable {ρ : Type} [RandomSource ρ]

theorem run_manual {start : Score} (happenings : List (Player.Happening ρ)) {s : Sitting ρ}
    (h : start.Manual s.score)
    : start.Manual (s.run (happenings.map Player.Happening.action)).score := by
  induction happenings generalizing s with
  | nil => exact h
  | cons happening happenings ih => exact ih (Player.perform_manual happening h)

/--
However an interactive session of a script went on, what waits at its end is waited for to the last
exactly if the steps that go round in a circle come to an end. They do if no sequence leads back to
itself.
-/
theorem run_settles_iff (config : CommandLine.Config) (text : String) (created now : Instant)
    (chance : ρ) (happenings : List (Player.Happening ρ))
    : let opened : Sitting ρ := { player := config.player text created chance }
      let p := (opened.run (happenings.map Player.Happening.action)).player
      (p.Settles now ↔ ∃ most, ∀ turns, opened.score.circlings (p.settling turns now).1 ≤ most)
        ∧ ((∀ index, ¬opened.score.LeadsBack index) → p.Settles now) := by
  intro opened p
  have huntouched : opened.score.Untouched := config.player_untouched text created chance
  have hmanual : opened.score.Manual p.score := run_manual happenings huntouched.manual
  refine ⟨Player.settles_iff now hmanual, ?_⟩
  intro hacyclic
  rw [Player.settles_iff now hmanual]
  exact ⟨0, fun _ => Nat.le_of_eq (Player.circlings_eq_zero hacyclic _)⟩

end Sitting

/--
The step samples the sequence at the head of the score when its delay is over.
-/
def Step.spins (step : Step) : Bool :=
  match step.command, step.target with
  | .sample, .sequence 0 _ => step.isDelayed
  | _, _ => false

/--
A sequence that samples itself with each pass, for ever.
-/
structure Sequence.Spins (s : Sequence) : Prop where
  steps : ∃ step, s.steps = [step] ∧ step.spins = true
  shuffle : s.shuffle = false
  cursor : s.cursor = none
  repeats : s.repeats = true
  count : s.count = none
  completed : s.completed = false
  exhausted : s.exhausted = false

def Timeline.Task.spins (task : Timeline.Task) : Bool :=
  match task.action with
  | .dispatch step _ => step.spins
  | .tick => false

structure Score.Spins (s : Score) : Prop where
  sequences : ∃ sequence, s.sequences = [sequence] ∧ sequence.Spins
  waiting : ∃ task, s.timeline.tasks = [task] ∧ task.id < s.timeline.nextId ∧ task.spins = true

theorem Step.spins_cases {step : Step} (h : step.spins = true)
    : step.isDelayed = true ∧ step.isGroup = false ∧ step.starts? = some 0
        ∧ ∀ s : Score, s.steer step = s := by
  unfold spins at h
  split at h
  . next hcommand htarget =>
    unfold isGroup starts? Score.steer
    rw [hcommand, htarget]
    exact ⟨h, rfl, rfl, fun _ => rfl⟩
  . contradiction

theorem Timeline.Task.spins_cases {task : Timeline.Task} (h : task.spins = true)
    : ∃ step sequenceId, task.action = .dispatch step sequenceId ∧ step.spins = true := by
  unfold spins at h
  split at h
  . next step sequenceId haction => exact ⟨step, sequenceId, haction, h⟩
  . contradiction

section

variable {ρ : Type} [RandomSource ρ]

theorem Sequence.Spins.next? {s : Sequence} (h : s.Spins) (source : ρ)
    : ∃ step after, s.next? source = some (step, after, source)
        ∧ step.spins = true ∧ after.Spins := by
  obtain ⟨step, hsteps, hspins⟩ := h.steps
  let passed : Sequence := { s.moveTo 0 with completions := s.completions + 1 }
  have hend : (s.moveTo 0).endPass = passed.reset := by
    unfold endPass countReached moveTo
    simp [h.repeats, h.count, passed, moveTo]
  refine ⟨step, passed.reset, ?_, hspins, ?_⟩
  . unfold Sequence.next? nextOrdered?
    rw [h.completed, h.exhausted, h.shuffle]
    have hindex : s.nextIndex = 0 := by
      unfold nextIndex
      rw [h.cursor]
    simp [hindex, hsteps, hend, size]
  . exact ⟨⟨step, hsteps, hspins⟩, h.shuffle, rfl, h.repeats, h.count, rfl, rfl⟩

theorem Performance.release_spins (clock : Clock ρ) {p : Performance ρ} {sequence : Sequence}
    (hsequences : p.score.sequences = [sequence]) (hsequence : sequence.Spins)
    {task : Timeline.Task} (htasks : p.score.timeline.tasks = [task]) (hwaits : task.spins = true)
    : (p.release clock task).score.Spins := by
  obtain ⟨step, sequenceId, haction, hstep⟩ := Timeline.Task.spins_cases hwaits
  obtain ⟨_, hgroup, hstarts, hsteer⟩ := Step.spins_cases hstep
  let left : Performance ρ := { p with score.timeline := (p.score.timeline.cancel task.id).2 }
  have hleft : left.score.timeline.tasks = [] := by
    change (p.score.timeline.cancel task.id).2.tasks = []
    unfold Timeline.cancel
    rw [htasks]
    simp
  let carried := left.carryOut clock sequenceId step
  have hscore : carried.score = (left.record clock sequenceId step).score := hsteer _
  have hcarried : carried.score.sequences = [sequence] := by
    rw [hscore]
    exact hsequences
  have hwaiting : carried.score.timeline.tasks = [] := by
    rw [hscore]
    exact hleft
  obtain ⟨next, after, hnext, hspins, hafter⟩ := hsequence.next? carried.source
  obtain ⟨hdelayed, _⟩ := Step.spins_cases hspins
  let drawn : Performance ρ :=
    ⟨{ carried.score with sequences := carried.score.sequences.set 0 after }, carried.source⟩
  have hreleased : p.release clock task
      = execute clock (dispatch clock 32) sequence.id next drawn := by
    have hget : (left.carryOut clock sequenceId step).score.sequences[0]? = some sequence := by
      rw [hcarried]
      rfl
    rw [release_dispatch clock haction]
    unfold fire maxDepth
    rw [dispatch_single _ _ _ _ _ hgroup, hstarts]
    dsimp only
    unfold advance
    rw [hget]
    dsimp only
    rw [hnext]
  rw [hreleased]
  unfold execute
  rw [if_pos hdelayed]
  constructor
  . refine ⟨after, ?_, hafter⟩
    change carried.score.sequences.set 0 after = [after]
    rw [hcarried]
    rfl
  . have hposted : (drawn.postpone clock sequence.id next).score.timeline
        = carried.score.timeline.schedule _ _ := rfl
    rw [hposted, Timeline.schedule, hwaiting]
    exact ⟨_, rfl, Nat.lt_succ_self _, hspins⟩

theorem Player.runDue_spins {p : Player ρ} (h : p.score.Spins) (now : Instant)
    : ∃ due, p.score.nextDue? = some due ∧ (p.runDue (now.max due)).2.score.Spins := by
  obtain ⟨sequence, hsequences, hsequence⟩ := h.sequences
  obtain ⟨task, htasks, hid, hwaits⟩ := h.waiting
  refine ⟨task.due, ?_, ?_⟩
  . unfold Score.nextDue? Timeline.nextDue?
    rw [htasks]
    rfl
  . have hdue : task.isDue (now.max task.due) p.score.timeline.nextId = true :=
      Timeline.Task.isDue_iff.mpr ⟨Instant.le_max_right now task.due, hid⟩
    have hpop : p.score.timeline.popDue? (now.max task.due) p.score.timeline.watermark
        = some (task, (p.score.timeline.cancel task.id).2) := by
      unfold Timeline.popDue? Timeline.watermark
      rw [htasks, List.filter_cons_of_pos hdue]
      rfl
    have hsize : p.score.timeline.size = 1 := by
      unfold Timeline.size
      rw [htasks]
      rfl
    have hran : (p.runDue (now.max task.due)).2.performance
        = p.performance.release (now.max task.due) task := by
      change (p.performance.fireDueBefore _ (now.max task.due) p.score.timeline.watermark
        p.score.timeline.size).2 = _
      rw [hsize, Performance.fireDueBefore_of_some hpop]
      rfl
    unfold Player.score
    rw [hran]
    apply Performance.release_spins _ hsequences hsequence htasks hwaits

theorem Player.settle_of_spins {p : Player ρ} (h : p.score.Spins) (turns : Nat) (now : Instant)
    : p.settle turns now = none := by
  induction turns generalizing now p with
  | zero =>
    obtain ⟨due, hdue, _⟩ := Player.runDue_spins h now
    unfold settle
    rw [hdue]
  | succ turns ih =>
    obtain ⟨due, hdue, hspins⟩ := Player.runDue_spins h now
    have hdrained : (p.runDue (now.max due)).2.drain.2.score.Spins :=
      ⟨hspins.sequences, hspins.waiting⟩
    unfold settle
    rw [hdue]
    dsimp only
    rw [ih hdrained]

end

/--
The sequence samples itself. An empty line plays it, and the player is to quit then.
-/
theorem Player.settle_eq_none_of_circle
    : let config : CommandLine.Config :=
        { script := "script.xml", format := .xml, delimiter := "\n", options := {}, timeScale := 1.0,
          mode := .interactive, maxSteps := none, seed := none, logJson := false }
      let text := "<s><sequence id='a' repeat=''><sample delay='1'>a</sample></sequence></s>"
      let opened : Sitting SeededSource :=
        { player := config.player text default (SeededSource.ofSeed 0) }
      let happenings : List (Player.Happening SeededSource) := [.line (Clock.held default), .written]
      let p := (opened.run (happenings.map Player.Happening.action)).player
      ∀ turns, p.settle turns default = none := by
  intro config text opened happenings p turns
  apply Player.settle_of_spins
  let sequence := p.score.sequences.headD default
  let task := p.score.timeline.tasks.headD default
  obtain ⟨hsequences, hsteps, hspins, hshuffle, hcursor, hrepeats, hcount, hcompleted, hexhausted⟩
      : p.score.sequences.length = 1 ∧ sequence.steps.length = 1
        ∧ (∀ step ∈ sequence.steps, step.spins = true) ∧ sequence.shuffle = false
        ∧ sequence.cursor = none ∧ sequence.repeats = true ∧ sequence.count = none
        ∧ sequence.completed = false ∧ sequence.exhausted = false := by
    decide +kernel
  obtain ⟨htasks, hid, hwaits⟩
      : p.score.timeline.tasks.length = 1 ∧ task.id < p.score.timeline.nextId
        ∧ task.spins = true := by
    decide +kernel
  obtain ⟨step, hstep⟩ := List.length_eq_one_iff.mp hsteps
  have hstep : sequence.steps = [step] ∧ step.spins = true :=
    ⟨hstep, hspins step (hstep ▸ List.mem_singleton_self step)⟩
  constructor
  . obtain ⟨only, honly⟩ := List.length_eq_one_iff.mp hsequences
    have hsame : sequence = only := by
      unfold sequence
      rw [honly]
      rfl
    refine ⟨sequence, hsame ▸ honly, ?_⟩
    exact ⟨⟨step, hstep⟩, hshuffle, hcursor, hrepeats, hcount, hcompleted, hexhausted⟩
  . obtain ⟨only, honly⟩ := List.length_eq_one_iff.mp htasks
    have hsame : task = only := by
      unfold task
      rw [honly]
      rfl
    exact ⟨task, hsame ▸ honly, hid, hwaits⟩

end Narrative
