import Narrative.Proofs.Frame
import Narrative.Proofs.Invariant
import Narrative.Proofs.Recital

/-!
This module contains how long a sequence stays exhausted. The sequences of a score are followed
change by change through a run, within its operations too: from where a sequence is exhausted, it
gives no step and keeps its place until it is reset.
-/

namespace Narrative

namespace Step

def resets? (step : Step) : Option Nat :=
  match step.command, step.target with
  | .reset, .sequence index _ => some index
  | _, _ => none

end Step

/--
What happens on the way through a run: a sequence gives a step, the event of a step is recorded, or
all sequences are rewound.
-/
inductive Change where
  | gives (index : Nat) (step : Step)
  | records (step : Step)
  | rewinds

def Change.recorded? : Change → Option Step
  | records step => some step
  | _ => none

def Turn.rewinds {ρ : Type} : Turn ρ → Bool
  | .act _ .reset => true
  | _ => false

variable {ρ : Type} [RandomSource ρ]

/--
A performance passes through the changes on its way from `start`. Whatever else happens leaves the
sequences alone, or cues one, adds one or finds again what their steps refer to.
-/
inductive Passes (start : Performance ρ) : List Change → Performance ρ → Prop where
  | here : Passes start [] start
  | give {changes : List Change} {p : Performance ρ} {index : Nat} {sequence after : Sequence}
      {step : Step} {source : ρ} :
    Passes start changes p → p.score.sequences[index]? = some sequence →
      sequence.next? p.source = some (step, after, source) →
      Passes start (changes ++ [.gives index step])
        ⟨{ p.score with sequences := p.score.sequences.set index after }, source⟩
  | record {changes : List Change} {p : Performance ρ} (clock : Clock ρ) (sequenceId : String)
      (step : Step) :
    Passes start changes p →
      Passes start (changes ++ [.records step]) (p.carryOut clock sequenceId step)
  | cue {changes : List Change} {p : Performance ρ} (index : Nat) (atDate : Option Instant) :
    Passes start changes p → Passes start changes { p with score := p.score.select index atDate }
  | rewind {changes : List Change} {p : Performance ρ} :
    Passes start changes p →
      Passes start (changes ++ [.rewinds]) { p with score := p.score.reset }
  | add {changes : List Change} {p : Performance ρ} (part : Part) :
    Passes start changes p → Passes start changes { p with score := p.score.add part }
  | init {changes : List Change} {p : Performance ρ} :
    Passes start changes p → Passes start changes { p with score := p.score.init }
  | rest {changes : List Change} {p q : Performance ρ} :
    Passes start changes p → q.score.sequences = p.score.sequences → Passes start changes q

namespace Sequence

/--
`after` is `s`, but for its cursor and for what its steps refer to.
-/
def Lasts (s after : Sequence) : Prop :=
  ∃ cursor steps, after = { s with cursor, steps }

namespace Lasts

variable {s after last : Sequence}

theorem refl (s : Sequence) : s.Lasts s :=
  ⟨_, _, rfl⟩

theorem trans (h : s.Lasts after) (hlast : after.Lasts last) : s.Lasts last := by
  obtain ⟨_, _, hafter⟩ := h
  obtain ⟨_, _, hlast⟩ := hlast
  rw [hlast, hafter]
  exact ⟨_, _, rfl⟩

theorem exhausted (h : s.Lasts after) : after.exhausted = s.exhausted := by
  obtain ⟨_, _, hafter⟩ := h
  rw [hafter]

theorem cue (s : Sequence) (atDate : Option Instant)
    : s.Lasts ((atDate.bind s.matchDate?).getD s) := by
  rw [cue_eq]
  split
  . apply refl
  . exact ⟨_, _, rfl⟩

end Lasts

theorem next?_of_exhausted {s : Sequence} (h : s.exhausted = true) (source : ρ)
    : s.next? source = none := by
  unfold next?
  simp [h]

end Sequence

namespace Score

/--
The sequence is at its place still, and has kept everything that playback could change but the
cursor.
-/
def Holds (s : Score) (index : Nat) (sequence : Sequence) : Prop :=
  ∃ after, s.sequences[index]? = some after ∧ sequence.Lasts after

namespace Holds

variable {s : Score} {index : Nat} {sequence : Sequence}

theorem congr (h : s.Holds index sequence) {s' : Score}
    (hsequences : s'.sequences[index]? = s.sequences[index]?)
    : s'.Holds index sequence := by
  unfold Holds
  rw [hsequences]
  exact h

theorem modify (h : s.Holds index sequence) {s' : Score} {other : Nat} {f : Sequence → Sequence}
    (hsequences : s'.sequences = s.sequences.modify other f)
    (hlasts : other = index → ∀ after : Sequence, after.Lasts (f after))
    : s'.Holds index sequence := by
  obtain ⟨after, hget, hafter⟩ := h
  by_cases hsame : other = index
  . refine ⟨f after, ?_, hafter.trans (hlasts hsame after)⟩
    rw [hsequences, List.getElem?_modify, hget, hsame]
    simp
  . refine ⟨after, ?_, hafter⟩
    rw [hsequences, List.getElem?_modify, hget]
    simp [hsame]

theorem select (h : s.Holds index sequence) (other : Nat) (atDate : Option Instant)
    : (s.select other atDate).Holds index sequence :=
  h.modify rfl fun _ after => .cue after atDate

theorem steer (h : s.Holds index sequence) {step : Step} (hstep : step.resets? ≠ some index)
    : (s.steer step).Holds index sequence := by
  unfold Score.steer
  split
  . apply h.select
  . next other _ hcommand htarget =>
    apply h.modify rfl
    intro hsame
    unfold Step.resets? at hstep
    rw [hcommand, htarget] at hstep
    exact absurd (congrArg some hsame) hstep
  . exact h

theorem add (h : s.Holds index sequence) (part : Part) : (s.add part).Holds index sequence := by
  cases part with
  | sequence added =>
    obtain ⟨after, hget, hafter⟩ := h
    refine ⟨after, ?_, hafter⟩
    have hlt := (List.getElem?_eq_some_iff.mp hget).1
    change (s.sequences ++ [added])[index]? = some after
    rw [List.getElem?_append_left hlt, hget]
  | setting setting =>
    obtain ⟨_, _, _, _, hset⟩ := s.set_eq setting
    apply h.congr
    unfold Score.add
    dsimp only
    rw [hset]
  | _ => exact h

theorem init (h : s.Holds index sequence) : s.init.Holds index sequence := by
  obtain ⟨after, hget, hafter⟩ := h
  refine ⟨{ after with steps := Step.mapAll s.resolve after.steps }, ?_, hafter.trans ⟨_, _, rfl⟩⟩
  unfold Score.init
  dsimp only
  rw [List.getElem?_map, hget]
  rfl

end Holds

end Score

namespace Passes

variable {start mid p : Performance ρ} {changes more : List Change}

theorem trans (h : Passes start changes mid) (hlast : Passes mid more p)
    : Passes start (changes ++ more) p := by
  induction hlast with
  | here => rwa [List.append_nil]
  | give _ hget hnext ih =>
    rw [← List.append_assoc]
    apply ih.give hget hnext
  | record clock sequenceId step _ ih =>
    rw [← List.append_assoc]
    apply ih.record clock sequenceId step
  | cue index atDate _ ih => apply ih.cue index atDate
  | rewind _ ih =>
    rw [← List.append_assoc]
    apply ih.rewind
  | add part _ ih => apply ih.add part
  | init _ ih => apply ih.init
  | rest _ hsequences ih => apply ih.rest hsequences

/--
From where a sequence is exhausted, it gives no step and holds out until it is reset.
-/
theorem holds (h : Passes start changes p) {index : Nat} {sequence : Sequence}
    (hget : start.score.sequences[index]? = some sequence) (hexhausted : sequence.exhausted = true)
    (hrewinds : .rewinds ∉ changes)
    (hresets : ∀ step, .records step ∈ changes → step.resets? ≠ some index)
    : (∀ step, .gives index step ∉ changes) ∧ p.score.Holds index sequence := by
  induction h with
  | here => exact ⟨fun _ => List.not_mem_nil, sequence, hget, .refl _⟩
  | @give changes p other drawn after given source _ hdrawn hnext ih =>
    simp only [List.mem_append, List.mem_singleton, not_or] at hrewinds hresets ⊢
    obtain ⟨hgives, hholds⟩ := ih hrewinds.1 fun step hmem => hresets step (Or.inl hmem)
    -- an exhausted sequence has no step to give, so it is another one that gives it
    have hother : other ≠ index := by
      intro hsame
      obtain ⟨held, hheld, hlasts⟩ := hholds
      rw [hsame, hheld, Option.some.injEq] at hdrawn
      rw [← hdrawn, Sequence.next?_of_exhausted (hlasts.exhausted.trans hexhausted)] at hnext
      contradiction
    refine ⟨fun step => ⟨hgives step, ?_⟩, ?_⟩
    . intro hgive
      exact hother (Change.gives.inj hgive).1.symm
    . apply hholds.congr
      exact List.getElem?_set_ne hother
  | record clock sequenceId step _ ih =>
    simp only [List.mem_append, List.mem_singleton, not_or] at hrewinds hresets ⊢
    obtain ⟨hgives, hholds⟩ := ih hrewinds.1 fun step hmem => hresets step (Or.inl hmem)
    refine ⟨fun step => ⟨hgives step, nofun⟩, ?_⟩
    have hrecorded : (Performance.record clock sequenceId step _).score.Holds index sequence :=
      hholds.congr rfl
    exact hrecorded.steer (hresets step (Or.inr rfl))
  | cue other atDate _ ih =>
    obtain ⟨hgives, hholds⟩ := ih hrewinds hresets
    exact ⟨hgives, hholds.select other atDate⟩
  | rewind _ _ => exact absurd (List.mem_append_right _ List.mem_cons_self) hrewinds
  | add part _ ih =>
    obtain ⟨hgives, hholds⟩ := ih hrewinds hresets
    exact ⟨hgives, hholds.add part⟩
  | init _ ih =>
    obtain ⟨hgives, hholds⟩ := ih hrewinds hresets
    exact ⟨hgives, hholds.init⟩
  | rest _ hsequences ih =>
    obtain ⟨hgives, hholds⟩ := ih hrewinds hresets
    exact ⟨hgives, hholds.congr (congrArg (·[index]?) hsequences)⟩

end Passes

/--
The changes that a performance came through since `start`, when `told` had been recorded: what was
recorded on the way is in the record, and nothing was rewound.
-/
structure Charted (start : Performance ρ) (told : List Step) (drained : List Event)
    (p : Performance ρ) (changes : List Change) : Prop where
  passes : Passes start changes p
  record : (drained ++ p.score.events.toList).map (·.step)
    = told ++ changes.filterMap Change.recorded?
  rewinds : .rewinds ∉ changes

namespace Charted

variable {start p q : Performance ρ} {told : List Step} {drained : List Event}
variable {changes : List Change}

theorem here (start : Performance ρ) (drained : List Event)
    : Charted start ((drained ++ start.score.events.toList).map (·.step)) drained start [] :=
  ⟨.here, (List.append_nil _).symm, List.not_mem_nil⟩

theorem rest (h : Charted start told drained p changes)
    (hsequences : q.score.sequences = p.score.sequences) (hevents : q.score.events = p.score.events)
    : Charted start told drained q changes := by
  refine ⟨h.passes.rest hsequences, ?_, h.rewinds⟩
  rw [hevents]
  exact h.record

end Charted

namespace Chronicle

end Chronicle

end Narrative
