import Narrative.Proofs.Frame
import Narrative.Proofs.Invariant
import Narrative.Proofs.Recital
import Narrative.Proofs.Steps
import Narrative.Proofs.Timeline

/-!
This module contains where the indices of a score point to. A score keeps them in its cursors, in its
queue, in the targets of its steps and in the steps that wait, and there is an item at each of them.
-/

namespace Narrative

theorem lastIndex?_lt {p : α → Bool} {items : List α} {index : Nat}
    (h : lastIndex? p items = some index)
    : index < items.length := by
  induction items generalizing index with
  | nil => contradiction
  | cons item items ih =>
    unfold lastIndex? at h
    rw [List.length_cons]
    split at h
    . next found hfound =>
      have := ih hfound
      have := Option.some.inj h
      omega
    . split at h
      . have := Option.some.inj h
        omega
      . contradiction

/--
How many items of each kind there are.
-/
structure Extent where
  sequences : Nat
  characters : Nat
  locations : Nat

namespace Extent

def Has (e : Extent) : Target → Prop
  | .unresolved | .placeholder _ => True
  | .character index _ => index < e.characters
  | .location index _ => index < e.locations
  | .sequence index _ => index < e.sequences

def Knows (e : Extent) (step : Step) : Prop :=
  ∀ i ∈ step.instructions, e.Has i.target

instance : LE Extent :=
  ⟨fun a b => a.sequences ≤ b.sequences ∧ a.characters ≤ b.characters ∧ a.locations ≤ b.locations⟩

variable {e more : Extent}

theorem Has.mono {target : Target} (h : e.Has target) (hmore : e ≤ more) : more.Has target := by
  obtain ⟨_, _, _⟩ := hmore
  cases target with
  | unresolved => trivial
  | placeholder => trivial
  | _ =>
    dsimp only [Has] at *
    omega

theorem Knows.mono {step : Step} (h : e.Knows step) (hmore : e ≤ more) : more.Knows step :=
  fun i hi => (h i hi).mono hmore

theorem Knows.substep {step substep : Step} (h : e.Knows step) (hmem : substep ∈ step.substeps)
    : e.Knows substep :=
  fun i hi => h i (Step.instructions_subset hmem hi)

theorem Knows.target {step : Step} (h : e.Knows step) : e.Has step.target :=
  h _ step.instruction_mem

end Extent

def Part.Unresolved : Part → Prop
  | .sequence added => ∀ step ∈ added.steps, ∀ i ∈ step.instructions, i.target = .unresolved
  | _ => True

def Turn.Unresolved {ρ : Type} : Turn ρ → Prop
  | .add part => part.Unresolved
  | _ => True

namespace Score

def extent (s : Score) : Extent :=
  ⟨s.sequences.length, s.characters.length, s.locations.length⟩

/--
There is an item at every index that the score keeps. The cursor at the top level may be at the start
even if there is no sequence.
-/
structure InBounds (s : Score) : Prop where
  top : s.sequenceIndex = 0 ∨ s.sequenceIndex < s.sequences.length
  current : ∀ index, s.current = some index → index < s.sequences.length
  queue : ∀ index ∈ s.queue, index < s.sequences.length
  steps : ∀ sequence ∈ s.sequences, ∀ step ∈ sequence.steps, s.extent.Knows step
  waiting : ∀ task ∈ s.timeline.tasks, ∀ step sequenceId,
    task.action = .dispatch step sequenceId → s.extent.Knows step

theorem sequenceNamed?_lt {s : Score} {id : String} {index : Nat}
    (h : s.sequenceNamed? id = some index)
    : index < s.sequences.length :=
  lastIndex?_lt h

theorem characterNamed?_lt {s : Score} {id : String} {index : Nat}
    (h : s.characterNamed? id = some index)
    : index < s.characters.length :=
  lastIndex?_lt h

theorem locationNamed?_lt {s : Score} {id : String} {index : Nat}
    (h : s.locationNamed? id = some index)
    : index < s.locations.length :=
  lastIndex?_lt h

theorem findSequence_lt {s : Score} {id : String} {index : Nat} (h : s.findSequence id = .ok index)
    : index < s.sequences.length := by
  unfold findSequence at h
  split at h
  . next found hfound =>
    rw [← Except.ok.inj h]
    exact sequenceNamed?_lt hfound
  . contradiction

theorem has_characterTarget (s : Score) (reference : Option String)
    : s.extent.Has (s.characterTarget reference) := by
  unfold characterTarget
  split
  . trivial
  . split
    . next hfound => exact characterNamed?_lt hfound
    . trivial

theorem has_locationTarget (s : Score) (id : String) : s.extent.Has (s.locationTarget id) := by
  unfold locationTarget
  split
  . next hfound => exact locationNamed?_lt hfound
  . trivial

theorem has_sequenceTarget (s : Score) (id : String) : s.extent.Has (s.sequenceTarget id) := by
  unfold sequenceTarget
  split
  . next hfound => exact sequenceNamed?_lt hfound
  . trivial

theorem has_targetOf (s : Score) (i : Instruction) : s.extent.Has (s.targetOf i) := by
  unfold targetOf
  split
  . trivial
  . apply has_characterTarget
  . apply has_characterTarget
  . apply has_characterTarget
  . apply has_characterTarget
  . apply has_locationTarget
  . apply has_sequenceTarget
  . apply has_sequenceTarget
  . apply has_sequenceTarget
  . split
    . apply has_characterTarget
    . trivial

theorem knows_resolved (s : Score) {steps : List Step} {step : Step}
    (h : step ∈ Step.mapAll s.resolve steps)
    : s.extent.Knows step := by
  rw [Step.mapAll_eq, List.mem_map] at h
  obtain ⟨source, _, hstep⟩ := h
  rw [← hstep]
  intro i hi
  rw [Step.instructions_map, List.mem_map] at hi
  obtain ⟨authored, _, hi⟩ := hi
  rw [← hi]
  exact s.has_targetOf authored

theorem init_extent (s : Score) : s.init.extent = s.extent := by
  unfold init extent
  rw [List.length_map]

theorem knows_of_mem_init {s : Score} {sequence : Sequence} (hmem : sequence ∈ s.init.sequences)
    {step : Step} (hstep : step ∈ sequence.steps)
    : s.init.extent.Knows step := by
  obtain ⟨source, _, hsource⟩ := List.mem_map.mp hmem
  rw [← hsource] at hstep
  rw [init_extent]
  exact s.knows_resolved hstep

namespace InBounds

variable {s : Score}

theorem init (h : s.InBounds) : s.init.InBounds := by
  have hlength : s.init.sequences.length = s.sequences.length := List.length_map _
  refine ⟨?_, ?_, ?_, fun _ hmem _ hstep => knows_of_mem_init hmem hstep, ?_⟩
  . rw [hlength]
    exact h.top
  . rw [hlength]
    exact h.current
  . rw [hlength]
    exact h.queue
  . rw [init_extent]
    exact h.waiting

theorem grow (h : s.InBounds) {sequences : List Sequence} {characters : List Character}
    {locations : List Location}
    (hextent : s.extent ≤ ⟨sequences.length, characters.length, locations.length⟩)
    (hsteps : ∀ sequence ∈ sequences, sequence ∈ s.sequences
      ∨ ∀ step ∈ sequence.steps, ∀ i ∈ step.instructions, i.target = .unresolved)
    : InBounds { s with sequences, characters, locations } := by
  have hlength : s.sequences.length ≤ sequences.length := hextent.1
  refine ⟨?_, ?_, ?_, ?_, ?_⟩
  . have := h.top
    dsimp only
    omega
  . intro index hindex
    exact Nat.lt_of_lt_of_le (h.current index hindex) hlength
  . intro index hindex
    exact Nat.lt_of_lt_of_le (h.queue index hindex) hlength
  . intro sequence hmem step hstep
    cases hsteps sequence hmem with
    | inl hold => exact (h.steps sequence hold step hstep).mono hextent
    | inr hnew =>
      intro i hi
      rw [hnew step hstep i hi]
      trivial
  . intro task hmem step sequenceId haction
    exact (h.waiting task hmem step sequenceId haction).mono hextent

theorem add (h : s.InBounds) {part : Part} (hpart : part.Unresolved) : (s.add part).InBounds := by
  cases part with
  | sequence added =>
    change InBounds { s with sequences := s.sequences ++ [added] }
    apply h.grow
    . exact ⟨by simp [extent], Nat.le_refl _, Nat.le_refl _⟩
    . intro sequence hmem
      cases List.mem_append.mp hmem with
      | inl hold => exact Or.inl hold
      | inr hnew =>
        rw [List.mem_singleton.mp hnew]
        exact Or.inr hpart
  | character added =>
    change InBounds { s with characters := s.characters ++ [added] }
    apply h.grow
    . exact ⟨Nat.le_refl _, by simp [extent], Nat.le_refl _⟩
    . exact fun _ hmem => Or.inl hmem
  | location added =>
    change InBounds { s with locations := s.locations ++ [added] }
    apply h.grow
    . exact ⟨Nat.le_refl _, Nat.le_refl _, by simp [extent]⟩
    . exact fun _ hmem => Or.inl hmem
  | setting setting =>
    obtain ⟨_, _, _, _, hset⟩ := s.set_eq setting
    unfold Score.add
    dsimp only
    rw [hset]
    exact ⟨h.top, h.current, h.queue, h.steps, h.waiting⟩

end InBounds

theorem assembled_inBounds (now : Instant) (parts : List Part)
    : (assembled now parts).InBounds := by
  have hsteps : ∀ sequence ∈ (assembled now parts).sequences, ∀ step ∈ sequence.steps,
      (assembled now parts).extent.Knows step :=
    fun _ hmem _ hstep => knows_of_mem_init hmem hstep
  obtain ⟨_, _, _, _, _, _, _, h⟩ := assembled_eq now parts
  rw [h] at hsteps ⊢
  refine ⟨Or.inl rfl, ?_, ?_, hsteps, ?_⟩
  . exact fun _ hcurrent => nomatch hcurrent
  . exact fun _ hqueue => nomatch hqueue
  . exact fun _ htask => nomatch htask

/--
The indices that `s` keeps are within an extent that has not changed.
-/
structure Within (e : Extent) (s : Score) : Prop where
  extent : s.extent = e
  inBounds : s.InBounds

namespace Within

variable {e : Extent} {s : Score}

theorem length (h : Within e s) : s.sequences.length = e.sequences :=
  congrArg Extent.sequences h.extent

theorem congr (h : Within e s) {s' : Score} (hextent : s'.extent = s.extent)
    (hsequences : s'.sequences = s.sequences) (htop : s'.sequenceIndex = s.sequenceIndex)
    (hcurrent : s'.current = s.current) (hqueue : s'.queue = s.queue)
    (htimeline : s'.timeline = s.timeline)
    : Within e s' := by
  refine ⟨hextent.trans h.extent, ?_, ?_, ?_, ?_, ?_⟩
  . rw [htop, hsequences]
    exact h.inBounds.top
  . rw [hcurrent, hsequences]
    exact h.inBounds.current
  . rw [hqueue, hsequences]
    exact h.inBounds.queue
  . rw [hextent, hsequences]
    exact h.inBounds.steps
  . rw [hextent, htimeline]
    exact h.inBounds.waiting

theorem withSequences (h : Within e s) {sequences : List Sequence}
    (hsteps : sequences.map (·.steps) = s.sequences.map (·.steps))
    : Within e { s with sequences } := by
  have hlength : sequences.length = s.sequences.length := by
    have := congrArg List.length hsteps
    rw [List.length_map, List.length_map] at this
    exact this
  have hextent : Score.extent { s with sequences } = s.extent := by
    unfold Score.extent
    rw [hlength]
  refine ⟨hextent.trans h.extent, ?_, ?_, ?_, ?_, ?_⟩
  . rw [hlength]
    exact h.inBounds.top
  . rw [hlength]
    exact h.inBounds.current
  . rw [hlength]
    exact h.inBounds.queue
  . rw [hextent]
    intro sequence hmem step hstep
    obtain ⟨before, hbefore, hsame⟩ := List.mem_map.mp (hsteps ▸ List.mem_map_of_mem hmem)
    rw [← hsame] at hstep
    exact h.inBounds.steps before hbefore step hstep
  . rw [hextent]
    exact h.inBounds.waiting

theorem withCursors (h : Within e s) {sequenceIndex : Nat} {current : Option Nat}
    {queue : List Nat} (htop : sequenceIndex = 0 ∨ sequenceIndex < e.sequences)
    (hcurrent : ∀ index, current = some index → index < e.sequences)
    (hqueue : ∀ index ∈ queue, index < e.sequences)
    : Within e { s with sequenceIndex, current, queue } := by
  rw [← h.length] at htop hcurrent hqueue
  exact ⟨h.extent, htop, hcurrent, hqueue, h.inBounds.steps, h.inBounds.waiting⟩

theorem withTimeline (h : Within e s) {timeline : Timeline}
    (hwaiting : ∀ task ∈ timeline.tasks, task ∈ s.timeline.tasks
      ∨ ∀ step sequenceId, task.action = .dispatch step sequenceId → e.Knows step)
    : Within e { s with timeline } := by
  refine ⟨h.extent, h.inBounds.top, h.inBounds.current, h.inBounds.queue, h.inBounds.steps, ?_⟩
  intro task hmem step sequenceId haction
  cases hwaiting task hmem with
  | inl hold => exact h.inBounds.waiting task hold step sequenceId haction
  | inr hknows => exact h.extent ▸ hknows step sequenceId haction

theorem top (h : Within e s) : s.sequenceIndex = 0 ∨ s.sequenceIndex < e.sequences :=
  h.length ▸ h.inBounds.top

theorem current (h : Within e s) : ∀ index, s.current = some index → index < e.sequences :=
  h.length ▸ h.inBounds.current

theorem queue (h : Within e s) : ∀ index ∈ s.queue, index < e.sequences :=
  h.length ▸ h.inBounds.queue

end Within

end Score

theorem Sequence.steps_of_rewind_eq {s after : Sequence} (h : after.rewind = s.rewind)
    : after.steps = s.steps :=
  congrArg (·.steps) h

theorem Sequence.reset_steps (s : Sequence) : s.reset.steps = s.steps := rfl

namespace Score

variable {e : Extent} {s : Score}

theorem select_within (h : Within e s) {index : Nat} (hindex : index < e.sequences)
    (atDate : Option Instant)
    : Within e (s.select index atDate) := by
  have hsteps (sequence : Sequence)
      : ((atDate.bind sequence.matchDate?).getD sequence).steps = sequence.steps :=
    Sequence.steps_of_rewind_eq (Sequence.cue_rewind atDate sequence)
  have hcued := h.withSequences (map_modify_eq hsteps index)
  apply hcued.withCursors
  . exact Or.inr hindex
  . intro chosen hchosen
    rw [← Option.some.inj hchosen]
    exact hindex
  . exact hcued.queue

theorem record_within (h : Within e s) (now : Instant) (sequenceId : String) (step : Step)
    : Within e (s.record now sequenceId step) := by
  have hextent : (s.record now sequenceId step).extent = s.extent := by
    unfold record extent revealTarget
    dsimp only
    split
    . split
      . rw [List.length_modify]
      . rfl
    . rfl
  exact h.congr hextent rfl rfl rfl rfl rfl

theorem steer_within (h : Within e s) {step : Step} (hstep : e.Knows step)
    : Within e (s.steer step) := by
  have htarget := hstep.target
  unfold steer
  split
  . next hsequence =>
    rw [hsequence] at htarget
    exact select_within h htarget _
  . exact h.withSequences (map_modify_eq Sequence.reset_steps _)
  . exact h

theorem schedule_within (h : Within e s) (due : Instant) {action : Action}
    (haction : ∀ step sequenceId, action = .dispatch step sequenceId → e.Knows step)
    : Within e { s with timeline := s.timeline.schedule due action } := by
  apply h.withTimeline
  intro task hmem
  cases List.mem_append.mp hmem with
  | inl hold => exact Or.inl hold
  | inr hnew =>
    rw [List.mem_singleton.mp hnew]
    exact Or.inr haction

theorem chosen_within (h : Within e s) (queue : List Nat)
    (hqueue : ∀ index ∈ queue, index < e.sequences)
    : Within e (match queue.head? <|> s.topLevel? with
      | none => { s with queue }
      | some index =>
        { s with queue, current := if s.isExhausted index then s.current else some index }) := by
  split
  . exact h.withCursors h.top h.current hqueue
  . next index hfront =>
    have hindex : index < e.sequences := by
      cases queue with
      | nil => exact h.length ▸ (topLevel?_eq_some_iff.mp hfront).2
      | cons top rest =>
        rw [← Option.some.inj hfront]
        exact hqueue top List.mem_cons_self
    apply h.withCursors h.top _ hqueue
    intro chosen hchosen
    split at hchosen
    . exact h.current chosen hchosen
    . rw [← Option.some.inj hchosen]
      exact hindex

theorem choose_within (h : Within e s) : Within e s.choose := by
  unfold choose
  dsimp only
  cases hqueue : s.queue with
  | nil => exact chosen_within h [] fun _ hmem => nomatch hmem
  | cons top rest =>
    have hall := h.queue
    rw [hqueue] at hall
    apply chosen_within h (if s.isCompleted top then rest else top :: rest)
    intro index hmem
    apply hall
    split at hmem
    . exact List.mem_cons_of_mem _ hmem
    . exact hmem

theorem cancelTick_within (h : Within e s) : Within e s.cancelTick := by
  unfold cancelTick
  split
  . exact h
  . next id _ =>
    have hleft : Within e { s with timeline := (s.timeline.cancel id).2 } :=
      h.withTimeline fun task hmem => Or.inl (Timeline.mem_of_mem_cancel hmem)
    exact hleft.congr rfl rfl rfl rfl rfl rfl

end Score

namespace Performance

variable {ρ : Type} [RandomSource ρ]

theorem kept_within (clock : Clock ρ) (e : Extent)
    : Kept clock e.Knows (fun p => p.score.Within e) where
  substep h hmem := h.substep hmem
  draw {p index sequence after step source} h hget hnext := by
    have hsteps := Sequence.steps_of_rewind_eq (Sequence.next?_rewind hnext)
    constructor
    . have := h.inBounds.steps sequence (List.mem_of_getElem? hget) step
        (Sequence.mem_steps_of_next? hnext)
      rw [h.extent] at this
      exact this
    . apply h.withSequences (map_set_eq hget hsteps)
  postpone {p step} sequenceId hstep h := by
    have haction (waiting : Step) (id : String)
        (h : Action.dispatch step sequenceId = .dispatch waiting id) : e.Knows waiting :=
      (Action.dispatch.inj h).1 ▸ hstep
    exact (Score.schedule_within h _ haction).congr rfl rfl rfl rfl rfl rfl
  carryOut sequenceId hstep _ h := Score.steer_within (Score.record_within h _ _ _) hstep

theorem within_stable (e : Extent)
    : Stable e.Knows (fun p : Performance ρ => p.score.Within e) where
  kept clock := kept_within clock e
  read _ h := h
  choose h := Score.choose_within h
  selectAt atDate h hfind := Score.select_within h (h.length ▸ Score.findSequence_lt hfind) atDate
  enqueue {p id index} h hfind := by
    have hindex : index < e.sequences := h.length ▸ Score.findSequence_lt hfind
    apply h.withCursors h.top
    . intro chosen hchosen
      rw [← Option.some.inj hchosen]
      exact hindex
    . intro queued hqueued
      cases List.mem_cons.mp hqueued with
      | inl hnew => exact hnew ▸ hindex
      | inr hold => exact h.queue queued hold
  trigger _ h := h.congr rfl rfl rfl rfl rfl rfl
  setPlaying h := h.congr rfl rfl rfl rfl rfl rfl
  scheduleTick now h _ := by
    have hnone (step : Step) (sequenceId : String) (h : Action.tick = .dispatch step sequenceId)
        : e.Knows step :=
      nomatch h
    have hcancelled := Score.cancelTick_within h
    exact (Score.schedule_within hcancelled _ hnone).congr rfl rfl rfl rfl rfl rfl
  stop h := Score.cancelTick_within (h.congr rfl rfl rfl rfl rfl rfl)
  pop {p now mark task timeline} h hpop := by
    obtain ⟨hmem, hleft⟩ := Timeline.popDue?_removes hpop
    constructor
    . intro step sequenceId haction
      have := h.inBounds.waiting task hmem step sequenceId haction
      rw [h.extent] at this
      exact this
    . apply h.withTimeline
      intro other hother
      rw [hleft] at hother
      exact Or.inl (Timeline.mem_of_mem_cancel hother)
  spend h := h.congr rfl rfl rfl rfl rfl rfl
  reset {p} h := by
    have hsteps : (p.score.sequences.map Sequence.rewind).map (·.steps)
        = p.score.sequences.map (·.steps) := by
      rw [List.map_map]
      rfl
    apply (h.withSequences hsteps).withCursors (Or.inl rfl)
    . exact fun _ hcurrent => nomatch hcurrent
    . exact fun _ hqueue => nomatch hqueue

end Performance

namespace Chronicle

variable {ρ : Type} [RandomSource ρ]

theorem take_inBounds {turn : Turn ρ} (hturn : turn.Unresolved) {c : Chronicle ρ}
    (h : c.score.InBounds)
    : (c.take turn).score.InBounds := by
  cases turn with
  | act clock operation =>
    have hwithin : c.score.Within c.score.extent := ⟨rfl, h⟩
    have hcleared : c.score.clearEvents.Within c.score.extent :=
      hwithin.congr rfl rfl rfl rfl rfl rfl
    have := (Performance.within_stable c.score.extent).perform clock operation
      (p := c.performance) (fun _ => hcleared) hwithin
    exact this.inBounds
  | add part => exact h.add hturn
  | init => exact h.init

theorem run_inBounds {turns : List (Turn ρ)} (hturns : ∀ turn ∈ turns, turn.Unresolved)
    {c : Chronicle ρ} (h : c.score.InBounds)
    : (c.run turns).score.InBounds := by
  apply run_keeps (P := (·.score.InBounds)) (fun hturn h => take_inBounds hturn h) hturns h

end Chronicle

end Narrative
