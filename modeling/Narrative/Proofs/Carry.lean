import Narrative.Proofs.Frame
import Narrative.Proofs.Invariant
import Narrative.Proofs.Recital
import Narrative.Proofs.Timeline

/-!
This module contains what a score carries along while it is played: what holds of each sequence and of
the steps that wait, given that every single move of a sequence keeps it.
-/

namespace Narrative

theorem forall_getElem?_set {F : Nat → α → Prop} {items : List α}
    (h : ∀ {i item}, items[i]? = some item → F i item) {index : Nat} {item : α}
    (hitem : F index item)
    : ∀ {i other}, (items.set index item)[i]? = some other → F i other := by
  intro i other hget
  rw [List.getElem?_set] at hget
  split at hget
  . next heq =>
    split at hget
    . rw [← heq, ← Option.some.inj hget]
      exact hitem
    . contradiction
  . exact h hget

theorem forall_getElem?_modify {F : Nat → α → Prop} {items : List α}
    (h : ∀ {i item}, items[i]? = some item → F i item) {index : Nat} {f : α → α}
    (hf : ∀ {item}, F index item → F index (f item))
    : ∀ {i other}, (items.modify index f)[i]? = some other → F i other := by
  intro i other hget
  rw [List.getElem?_modify] at hget
  obtain ⟨item, hitem, hother⟩ := Option.map_eq_some_iff.mp hget
  rw [← hother]
  split
  . next heq =>
    rw [← heq] at hitem ⊢
    exact hf (h hitem)
  . exact h hitem

/--
`F` survives whatever playback does to a sequence at its place, as long as `Q` holds of the steps that
are carried out. The steps which a sequence gives and those under a step are such steps.
-/
structure Sequence.Closed (ρ : Type) [RandomSource ρ] (Q : Step → Prop) (F : Nat → Sequence → Prop) :
    Prop where
  substep {step substep : Step} : Q step → substep ∈ step.substeps → Q substep
  given {index : Nat} {s : Sequence} {step : Step} : F index s → step ∈ s.steps → Q step
  next {index : Nat} {s after : Sequence} {source left : ρ} {step : Step} :
    F index s → s.next? source = some (step, after, left) → F index after
  cue {step : Step} {atDate : Option Instant} {autoStart : Bool} {index : Nat} {id : String}
      {s : Sequence} :
    Q step → step.command = .setSequence atDate autoStart → step.target = .sequence index id →
      F index s → F index ((atDate.bind s.matchDate?).getD s)
  reset {index : Nat} {s : Sequence} : F index s → F index s.reset

namespace Score

structure Carries (Q : Step → Prop) (F : Nat → Sequence → Prop) (s : Score) : Prop where
  sequences {index : Nat} {sequence : Sequence} :
    s.sequences[index]? = some sequence → F index sequence
  waiting {task : Timeline.Task} {step : Step} {sequenceId : String} :
    task ∈ s.timeline.tasks → task.action = .dispatch step sequenceId → Q step

namespace Carries

variable {Q : Step → Prop} {F : Nat → Sequence → Prop} {s : Score}

theorem schedule (h : s.Carries Q F) (due : Instant) (action : Action)
    (haction : ∀ {step sequenceId}, action = .dispatch step sequenceId → Q step)
    : Carries Q F { s with timeline := s.timeline.schedule due action } := by
  refine ⟨h.sequences, ?_⟩
  intro task step sequenceId hmem hdispatch
  cases List.mem_append.mp hmem with
  | inl hold => exact h.waiting hold hdispatch
  | inr hnew =>
    rw [List.mem_singleton.mp hnew] at hdispatch
    exact haction hdispatch

theorem cancelTick (h : s.Carries Q F) : s.cancelTick.Carries Q F := by
  unfold Score.cancelTick
  split
  . exact h
  . exact ⟨h.sequences, fun hmem => h.waiting (Timeline.mem_of_mem_cancel hmem)⟩

theorem steer {ρ : Type} [RandomSource ρ] (hclosed : Sequence.Closed ρ Q F) (h : s.Carries Q F)
    {step : Step} (hstep : Q step)
    : (s.steer step).Carries Q F := by
  unfold Score.steer
  split
  . next hcommand htarget =>
    exact ⟨forall_getElem?_modify h.sequences (hclosed.cue hstep hcommand htarget), h.waiting⟩
  . exact ⟨forall_getElem?_modify h.sequences hclosed.reset, h.waiting⟩
  . exact h

end Carries

end Score

namespace Performance

variable {ρ : Type} [RandomSource ρ] {Q : Step → Prop} {F : Nat → Sequence → Prop}

theorem kept_carries (hclosed : Sequence.Closed ρ Q F) (clock : Clock ρ)
    : Kept clock Q (fun p : Performance ρ => p.score.Carries Q F) where
  substep := hclosed.substep
  draw h hget hnext :=
    have hsequence := h.sequences hget
    ⟨hclosed.given hsequence (Sequence.mem_steps_of_next? hnext),
      forall_getElem?_set h.sequences (hclosed.next hsequence hnext), h.waiting⟩
  postpone sequenceId hstep h :=
    have hpostponed := h.schedule _ (.dispatch _ sequenceId)
      fun haction => (Action.dispatch.inj haction).1 ▸ hstep
    ⟨hpostponed.sequences, hpostponed.waiting⟩
  carryOut {p step} sequenceId hstep _ h :=
    have hrecorded : (p.record clock sequenceId step).score.Carries Q F := ⟨h.sequences, h.waiting⟩
    hrecorded.steer hclosed hstep

theorem carries_steady (hclosed : Sequence.Closed ρ Q F)
    : Steady Q (fun p : Performance ρ => p.score.Carries Q F) where
  kept := kept_carries hclosed
  read _ h := h
  choose {p} h := by
    obtain ⟨_, _, hchoose⟩ := p.score.choose_eq
    rw [hchoose]
    exact ⟨h.sequences, h.waiting⟩
  trigger _ h := ⟨h.sequences, h.waiting⟩
  setPlaying h := ⟨h.sequences, h.waiting⟩
  scheduleTick _ h _ :=
    have hticked := h.cancelTick.schedule _ .tick fun haction => nomatch haction
    ⟨hticked.sequences, hticked.waiting⟩
  stop h := Score.Carries.cancelTick ⟨h.sequences, h.waiting⟩
  pop h hpop := by
    obtain ⟨hmem, hleft⟩ := Timeline.popDue?_removes hpop
    refine ⟨h.waiting hmem, h.sequences, ?_⟩
    intro other step sequenceId hother
    rw [hleft] at hother
    exact h.waiting (Timeline.mem_of_mem_cancel hother)
  spend h := ⟨h.sequences, h.waiting⟩

theorem carries_stable (hclosed : Sequence.Closed ρ Q F)
    (hcue : ∀ {index : Nat} {s : Sequence} (atDate : Option Instant),
      F index s → F index ((atDate.bind s.matchDate?).getD s))
    (hrewind : ∀ {index : Nat} {s : Sequence}, F index s → F index s.rewind)
    : Stable Q (fun p : Performance ρ => p.score.Carries Q F) where
  toSteady := carries_steady hclosed
  selectAt atDate h _ := ⟨forall_getElem?_modify h.sequences (hcue atDate), h.waiting⟩
  enqueue h _ := ⟨h.sequences, h.waiting⟩
  reset {p} h := by
    refine ⟨?_, h.waiting⟩
    intro index sequence hget
    have hget : (p.score.sequences.map Sequence.rewind)[index]? = some sequence := hget
    rw [List.getElem?_map, Option.map_eq_some_iff] at hget
    obtain ⟨before, hbefore, hsequence⟩ := hget
    rw [← hsequence]
    exact hrewind (h.sequences hbefore)

end Performance

end Narrative
