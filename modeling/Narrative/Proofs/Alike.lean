import Narrative.Proofs.Carry
import Narrative.Proofs.Coupling
import Narrative.Proofs.Source
import Narrative.Proofs.Steps

/-!
This module contains performances that are alike in all that decides what is played next: the
sequences, the cursors, the queue and chance. Some sequences may be hidden, and then they may
differ. What the world is like, what waits and what time it is makes no difference to what alike
performances play.
-/

namespace Narrative

namespace Step

/--
What is reached from the step through groups is plain.
-/
def IsCalm (step : Step) : Prop :=
  ∀ depth leaf, step.Reaches depth leaf → leaf.isPlain = true

theorem IsCalm.substep {step substep : Step} (h : step.IsCalm) (hgroup : step.isGroup = true)
    (hmem : substep ∈ step.substeps)
    : substep.IsCalm :=
  fun _ _ hreaches => h _ _ (.under hgroup hmem hreaches)

end Step

namespace Sequence

/--
The sequence is played in order, and its steps set no sequence going, nor back.
-/
structure Calm (s : Sequence) : Prop where
  shuffle : s.shuffle = false
  steps : ∀ step ∈ s.steps, step.IsCalm

namespace Calm

variable {s : Sequence}

theorem of_rewind_eq (h : s.Calm) {after : Sequence} (hsame : after.rewind = s.rewind)
    : after.Calm := by
  have hshuffle : after.shuffle = s.shuffle := congrArg (·.shuffle) hsame
  have hsteps : after.steps = s.steps := congrArg (·.steps) hsame
  refine ⟨hshuffle.trans h.shuffle, ?_⟩
  rw [hsteps]
  exact h.steps

theorem reset (h : s.Calm) : s.reset.Calm :=
  ⟨h.shuffle, h.steps⟩

theorem cue (h : s.Calm) (atDate : Option Instant)
    : ((atDate.bind s.matchDate?).getD s).Calm :=
  h.of_rewind_eq (cue_rewind atDate s)

/--
What is played in order is not drawn.
-/
theorem next?_source {ρ : Type} [RandomSource ρ] (h : s.Calm) {source left : ρ} {step : Step}
    {after : Sequence} (hnext : s.next? source = some (step, after, left))
    : left = source := by
  obtain ⟨_, ⟨hshuffle, _⟩ | ⟨_, _, hleft⟩⟩ := next?_cases hnext
  . rw [h.shuffle] at hshuffle
    contradiction
  . exact hleft

end Calm

end Sequence

/--
The steps that were recorded, each with the sequence that gave it.
-/
def Score.told (s : Score) : List (String × Step) :=
  s.events.toList.map fun event => (event.sequenceId, event.step)

theorem Score.told_record (s : Score) (now : Instant) (sequenceId : String) (step : Step)
    : (s.record now sequenceId step).told = s.told ++ [(sequenceId, step)] := by
  simp [told, record]

namespace Performance

theorem dispatch_of_calm {ρ : Type} [RandomSource ρ] {clock : Clock ρ} {P : Performance ρ → Prop}
    (hpostpone : ∀ sequenceId step {p}, P p → P (p.postpone clock sequenceId step))
    (hrecord : ∀ sequenceId step {p}, P p → P (p.record clock sequenceId step)) (room : Nat)
    : ∀ (sequenceId : String) {step : Step} {p : Performance ρ},
        step.IsCalm → P p → P (dispatch clock room sequenceId step p) := by
  induction room with
  | zero => exact fun _ _ _ _ hp => hp
  | succ room ih =>
    intro sequenceId step p hstep hp
    cases hgroup : step.isGroup with
    | true =>
      rw [dispatch_group _ _ _ _ _ hgroup]
      apply List.foldlRecOn
      . exact hp
      . intro p hp substep hmem
        unfold execute
        split
        . apply hpostpone sequenceId substep hp
        . apply ih sequenceId (hstep.substep hgroup hmem) hp
    | false =>
      have hplain := hstep _ _ (.here hgroup)
      rw [dispatch_single _ _ _ _ _ hgroup, Step.starts?_of_isPlain hplain]
      unfold carryOut
      dsimp only
      rw [Score.steer_of_isPlain _ hplain]
      apply hrecord sequenceId step hp

variable {κ τ υ : Type}

/--
`p` and `q` have the same to play, but for the hidden sequences, which are calm in both. If none is
hidden, then what was recorded after `before` and `earlier` is the same as well.
-/
structure Alike (Hidden : Nat → Prop) (before earlier : List (String × Step))
    (p : Performance (Apart κ τ)) (q : Performance (Apart κ υ)) : Prop where
  sequences : ∀ index, ¬Hidden index → p.score.sequences[index]? = q.score.sequences[index]?
  sequenceIndex : p.score.sequenceIndex = q.score.sequenceIndex
  current : p.score.current = q.score.current
  queue : p.score.queue = q.score.queue
  chance : p.source.chance = q.source.chance
  told : (∀ index, ¬Hidden index) →
    ∃ told, p.score.told = before ++ told ∧ q.score.told = earlier ++ told
  calm : ∀ index sequence, Hidden index → p.score.sequences[index]? = some sequence → sequence.Calm
  calm' : ∀ index sequence, Hidden index → q.score.sequences[index]? = some sequence → sequence.Calm

namespace Alike

variable {Hidden : Nat → Prop} {before earlier : List (String × Step)}
variable {p p' : Performance (Apart κ τ)} {q : Performance (Apart κ υ)}

theorem symm (h : Alike Hidden before earlier p q) : Alike Hidden earlier before q p where
  sequences index hindex := (h.sequences index hindex).symm
  sequenceIndex := h.sequenceIndex.symm
  current := h.current.symm
  queue := h.queue.symm
  chance := h.chance.symm
  told hnone :=
    have ⟨told, hp, hq⟩ := h.told hnone
    ⟨told, hq, hp⟩
  calm := h.calm'
  calm' := h.calm

/--
One of the two may change where that is hidden.
-/
theorem left (h : Alike Hidden before earlier p q)
    (hsequences : ∀ index, ¬Hidden index →
      p'.score.sequences[index]? = p.score.sequences[index]?)
    (hcalm : ∀ index sequence, Hidden index → p'.score.sequences[index]? = some sequence →
      sequence.Calm)
    (hsequenceIndex : p'.score.sequenceIndex = p.score.sequenceIndex)
    (hcurrent : p'.score.current = p.score.current) (hqueue : p'.score.queue = p.score.queue)
    (hchance : p'.source.chance = p.source.chance)
    (htold : (∀ index, ¬Hidden index) → p'.score.told = p.score.told)
    : Alike Hidden before earlier p' q where
  sequences index hindex := (hsequences index hindex).trans (h.sequences index hindex)
  sequenceIndex := hsequenceIndex.trans h.sequenceIndex
  current := hcurrent.trans h.current
  queue := hqueue.trans h.queue
  chance := hchance.trans h.chance
  told hnone := by
    rw [htold hnone]
    exact h.told hnone
  calm := hcalm
  calm' := h.calm'

theorem scheduleTick (h : Alike Hidden before earlier p q) (clock : Clock τ)
    : Alike Hidden before earlier (p.scheduleTick clock.apart) q := by
  obtain ⟨_, _, hschedule⟩ := p.scheduleTick_eq clock.apart
  rw [hschedule]
  exact { h with }

theorem settle (h : Alike Hidden before earlier p q) (clock : Clock τ)
    : Alike Hidden before earlier (if p.score.playing then p.scheduleTick clock.apart else p)
        q := by
  split
  . apply h.scheduleTick
  . exact h

/--
What is played of a hidden sequence stays hidden.
-/
theorem advance_hidden [RandomSource κ] (h : Alike Hidden before earlier p q) (clock : Clock τ)
    (room : Nat) {index : Nat} (hindex : Hidden index)
    : Alike Hidden before earlier (p.advance clock.apart (dispatch clock.apart room) index).2
        q := by
  have hsome : ¬∀ other, ¬Hidden other := fun hnone => hnone index hindex
  have hpostpone (sequenceId : String) (step : Step) {p : Performance (Apart κ τ)}
      (h : Alike Hidden before earlier p q)
      : Alike Hidden before earlier (p.postpone clock.apart sequenceId step) q :=
    h.left (fun _ _ => rfl) h.calm rfl rfl rfl rfl fun hnone => absurd hnone hsome
  have hrecord (sequenceId : String) (step : Step) {p : Performance (Apart κ τ)}
      (h : Alike Hidden before earlier p q)
      : Alike Hidden before earlier (p.record clock.apart sequenceId step) q :=
    h.left (fun _ _ => rfl) h.calm rfl rfl rfl rfl fun hnone => absurd hnone hsome
  unfold Performance.advance
  split
  . exact h
  . next sequence hget =>
    split
    . exact h
    . next step after source hnext =>
      have hcalm := h.calm index sequence hindex hget
      have hstep := hcalm.steps step (Sequence.mem_steps_of_next? hnext)
      have hafter := hcalm.of_rewind_eq (Sequence.next?_rewind hnext)
      have hdrawn : Alike Hidden before earlier
          ⟨{ p.score with sequences := p.score.sequences.set index after }, source⟩ q := by
        apply h.left
        . intro other hother
          apply List.getElem?_set_ne
          intro hsame
          exact hother (hsame ▸ hindex)
        . intro other item hother hitem
          exact forall_getElem?_set (F := fun other item => Hidden other → item.Calm)
            (fun hget hother => h.calm _ _ hother hget) (fun _ => hafter) hitem hother
        . rfl
        . rfl
        . rfl
        . rw [hcalm.next?_source hnext]
        . exact fun hnone => absurd hnone hsome
      dsimp only
      unfold execute
      split
      . apply hpostpone sequence.id step hdrawn
      . apply dispatch_of_calm hpostpone hrecord room sequence.id hstep hdrawn

/--
A change that both make to the sequence at the same place.
-/
theorem modify (h : Alike Hidden before earlier p q) (index : Nat) {f : Sequence → Sequence}
    (hcalm : ∀ sequence : Sequence, sequence.Calm → (f sequence).Calm)
    : Alike Hidden before earlier
        { p with score := { p.score with sequences := p.score.sequences.modify index f } }
        { q with score := { q.score with sequences := q.score.sequences.modify index f } } where
  sequences other hother := by
    rw [List.getElem?_modify, List.getElem?_modify, h.sequences other hother]
  sequenceIndex := h.sequenceIndex
  current := h.current
  queue := h.queue
  chance := h.chance
  told := h.told
  calm _ _ hother hget :=
    forall_getElem?_modify (F := fun other item => Hidden other → item.Calm)
      (fun hget hother => h.calm _ _ hother hget) (fun hitem hother => hcalm _ (hitem hother))
      hget hother
  calm' _ _ hother hget :=
    forall_getElem?_modify (F := fun other item => Hidden other → item.Calm)
      (fun hget hother => h.calm' _ _ hother hget) (fun hitem hother => hcalm _ (hitem hother))
      hget hother

theorem select (h : Alike Hidden before earlier p q) (index : Nat) (atDate : Option Instant)
    : Alike Hidden before earlier { p with score := p.score.select index atDate }
        { q with score := q.score.select index atDate } :=
  { h.modify index fun _ hcalm => hcalm.cue atDate with
    sequenceIndex := rfl
    current := rfl }

theorem steer (h : Alike Hidden before earlier p q) (step : Step)
    : Alike Hidden before earlier { p with score := p.score.steer step }
        { q with score := q.score.steer step } := by
  unfold Score.steer
  split
  . apply h.select
  . exact h.modify _ fun _ hcalm => hcalm.reset
  . exact h

theorem record (h : Alike Hidden before earlier p q) (clock : Clock τ) (other : Clock υ)
    (sequenceId : String) (step : Step)
    : Alike Hidden before earlier (p.record clock.apart sequenceId step)
        (q.record other.apart sequenceId step) := by
  refine { h with told := ?_ }
  intro hnone
  obtain ⟨told, hp, hq⟩ := h.told hnone
  refine ⟨told ++ [(sequenceId, step)], ?_, ?_⟩
  . rw [← List.append_assoc, ← hp]
    apply Score.told_record
  . rw [← List.append_assoc, ← hq]
    apply Score.told_record

/--
A sequence that is not hidden gives the same in both.
-/
theorem draw [RandomSource κ] (h : Alike Hidden before earlier p q) {index : Nat}
    (hindex : ¬Hidden index)
    : (p.draw? index = none ∧ q.draw? index = none)
        ∨ ∃ sequenceId step p' q',
            p.draw? index = some (sequenceId, step, p')
              ∧ q.draw? index = some (sequenceId, step, q')
              ∧ Alike Hidden before earlier p' q' := by
  have hvisible {other : Nat} (hother : Hidden other) : index ≠ other := by
    intro hsame
    exact hindex (hsame ▸ hother)
  have hget := h.sequences index hindex
  unfold draw?
  cases hp : p.score.sequences[index]? with
  | none =>
    rw [← hget, hp]
    exact Or.inl ⟨rfl, rfl⟩
  | some sequence =>
    rw [← hget, hp, Option.bind_some, Option.bind_some]
    -- both draw from the same chance, whatever the time is
    have hsame
        : (sequence.next? p.source).map (fun (step, after, left) => (step, after, left.chance))
        = (sequence.next? q.source).map fun (step, after, left) => (step, after, left.chance) := by
      rw [← Sequence.next?_seenBy RandomSource.seenBy_chance,
        ← Sequence.next?_seenBy RandomSource.seenBy_chance, h.chance]
    cases hnext : sequence.next? p.source with
    | none =>
      rw [hnext, Option.map_none, eq_comm, Option.map_eq_none_iff] at hsame
      rw [hsame]
      exact Or.inl ⟨rfl, rfl⟩
    | some given =>
      obtain ⟨step, after, left⟩ := given
      rw [hnext, Option.map_some, eq_comm, Option.map_eq_some_iff] at hsame
      obtain ⟨⟨step', after', left'⟩, hnext', heq⟩ := hsame
      simp only [Prod.mk.injEq] at heq
      obtain ⟨hstep, hafter, hleft⟩ := heq
      rw [hnext', hstep, hafter]
      refine Or.inr ⟨_, _, _, _, rfl, rfl, ?_⟩
      constructor
      . intro other hother
        rw [List.getElem?_set, List.getElem?_set, h.sequences other hother]
        have hlt := (List.getElem?_eq_some_iff.mp hp).1
        have hlt' := (List.getElem?_eq_some_iff.mp (hget.symm.trans hp)).1
        rw [if_pos hlt, if_pos hlt']
      . exact h.sequenceIndex
      . exact h.current
      . exact h.queue
      . exact hleft.symm
      . exact h.told
      . intro other item hother hitem
        rw [List.getElem?_set_ne (hvisible hother)] at hitem
        exact h.calm other item hother hitem
      . intro other item hother hitem
        rw [List.getElem?_set_ne (hvisible hother)] at hitem
        exact h.calm' other item hother hitem

end Alike

variable {Hidden : Nat → Prop} {before earlier : List (String × Step)}

theorem coupled_alike [RandomSource κ] (clock : Clock τ) (other : Clock υ)
    (Hidden : Nat → Prop) (before earlier : List (String × Step))
    : Coupled clock.apart other.apart Hidden
        (fun (p : Performance (Apart κ τ)) q => Alike Hidden before earlier p q) where
  draw h hindex := h.draw hindex
  conceal room h hindex :=
    ((h.advance_hidden clock room hindex).symm.advance_hidden other room hindex).symm
  postpone _ _ h := { h with }
  carryOut sequenceId step h := (h.record clock other sequenceId step).steer step

namespace Alike

variable {p : Performance (Apart κ τ)} {q : Performance (Apart κ υ)}

theorem start [RandomSource κ] (h : Alike Hidden before earlier p q) (clock : Clock τ)
    (other : Clock υ) {index : Nat} (hindex : ¬Hidden index)
    : (p.advance clock.apart (fire clock.apart) index).1
          = (q.advance other.apart (fire other.apart) index).1
        ∧ Alike Hidden before earlier (p.advance clock.apart (fire clock.apart) index).2
            (q.advance other.apart (fire other.apart) index).2 := by
  apply (coupled_alike clock other Hidden before earlier).start index hindex h

/--
Performances that have chosen the same sequence to go on with go on alike, whether or not one of
them plays by itself.
-/
theorem next [RandomSource κ] (clock : Clock τ) (other : Clock υ)
    (h : Alike Hidden before earlier { p with score := p.score.choose }
      { q with score := q.score.choose })
    (hcurrent : ∀ index, p.score.choose.current = some index → ¬Hidden index)
    : (p.next clock.apart).1 = (q.next other.apart).1
        ∧ Alike Hidden before earlier (p.next clock.apart).2 (q.next other.apart).2 := by
  have hplayed : (advanceCurrent clock.apart { p with score := p.score.choose }).1
        = (advanceCurrent other.apart { q with score := q.score.choose }).1
      ∧ Alike Hidden before earlier
          (advanceCurrent clock.apart { p with score := p.score.choose }).2
          (advanceCurrent other.apart { q with score := q.score.choose }).2 := by
    have hsame := h.current
    dsimp only at hsame
    unfold advanceCurrent
    cases hchosen : p.score.choose.current with
    | none =>
      rw [← hsame, hchosen]
      exact ⟨rfl, h⟩
    | some index =>
      have hindex := hcurrent index hchosen
      have hexhausted : q.score.choose.isExhausted index = p.score.choose.isExhausted index := by
        unfold Score.isExhausted
        rw [← h.sequences index hindex]
      rw [← hsame, hchosen]
      dsimp only
      rw [hexhausted]
      split
      . exact ⟨rfl, h⟩
      . exact h.start clock other hindex
  exact ⟨hplayed.1, ((hplayed.2.settle clock).symm.settle other).symm⟩

end Alike

end Performance

end Narrative
