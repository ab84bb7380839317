import Mathlib.Data.Option.Basic
import Narrative.Proofs.Numbering
import Narrative.Proofs.Ordered

/-!
This module contains what the cues of a sequence find, and which step comes after a cue when the
sequence is played in order.
-/

namespace Narrative

namespace Step

/--
`part` is a step itself or is under it, at any depth.
-/
inductive Within (part : Step) : (whole : Step) → Prop where
  | self : Within part part
  | under {substep whole : Step} : substep ∈ whole.substeps → Within part substep → Within part whole

theorem Within.instruction_mem {part whole : Step} (h : part.Within whole)
    : part.instruction ∈ whole.instructions := by
  induction h with
  | self => apply Step.instruction_mem
  | under hmem _ ih => exact instructions_subset hmem ih

mutual

theorem exists_within {i : Instruction} {whole : Step} (h : i ∈ whole.instructions)
    : ∃ part : Step, part.Within whole ∧ part.instruction = i := by
  cases whole with
  | mk j substeps =>
    rw [instructions] at h
    cases List.mem_cons.mp h with
    | inl heq => exact ⟨_, .self, heq.symm⟩
    | inr hunder =>
      obtain ⟨substep, hmem, part, hwithin, hpart⟩ := exists_within_of_all hunder
      exact ⟨part, .under hmem hwithin, hpart⟩

theorem exists_within_of_all {i : Instruction} {steps : List Step} (h : i ∈ instructionsOfAll steps)
    : ∃ step ∈ steps, ∃ part : Step, part.Within step ∧ part.instruction = i := by
  cases steps with
  | nil => exact nomatch h
  | cons step steps =>
    rw [instructionsOfAll] at h
    cases List.mem_append.mp h with
    | inl hhere => exact ⟨step, List.mem_cons_self, exists_within hhere⟩
    | inr hlater =>
      obtain ⟨other, hmem, hother⟩ := exists_within_of_all hlater
      exact ⟨other, List.mem_cons_of_mem _ hmem, hother⟩

end

def Has (id : Nat) (step : Step) : Prop :=
  ∃ part : Step, part.Within step ∧ part.id = id

theorem contains_iff_has (step : Step) (id : Nat) : step.contains id = true ↔ step.Has id := by
  rw [Sequence.contains_iff, List.mem_map]
  constructor
  . rintro ⟨i, hmem, hid⟩
    obtain ⟨part, hwithin, hpart⟩ := exists_within hmem
    exact ⟨part, hwithin, (congrArg Instruction.id hpart).trans hid⟩
  . rintro ⟨part, hwithin, hid⟩
    exact ⟨part.instruction, hwithin.instruction_mem, hid⟩

def Sets (date : Instant) (step : Step) : Prop :=
  step.command = .setDate (some date) ∨ step.command = .setTime (some date)

theorem date?_eq_some_iff (step : Step) (date : Instant)
    : step.date? = some date ↔ step.Sets date := by
  unfold date? Sets
  cases step.command with
  | setDate => simp
  | setTime => simp
  | _ => simp

end Step

namespace Sequence

/--
The step at `index` is the first of the steps that `P` holds of.
-/
structure FirstAt (P : Step → Prop) (steps : List Step) (index : Nat) (step : Step) : Prop where
  get : steps[index]? = some step
  holds : P step
  first : ∀ earlier < index, ∀ other, steps[earlier]? = some other → ¬P other

/--
What is sought by an id: the first step that has it, and only if none has it, the first one with such
a step under it.
-/
inductive SoughtAt (id : Nat) (steps : List Step) (index : Nat) (step : Step) : Prop where
  | own : FirstAt (·.id = id) steps index step → SoughtAt id steps index step
  | under :
    (∀ other ∈ steps, other.id ≠ id) → FirstAt (Step.Has id) steps index step →
      SoughtAt id steps index step

theorem SoughtAt.get {id : Nat} {steps : List Step} {index : Nat} {step : Step}
    (h : SoughtAt id steps index step)
    : steps[index]? = some step := by
  cases h with
  | own hfirst => exact hfirst.get
  | under _ hfirst => exact hfirst.get

theorem firstAt_of_findIdx? {P : Step → Prop} {p : Step → Bool} (hp : ∀ step, p step = true ↔ P step)
    {steps : List Step} {index : Nat} (h : steps.findIdx? p = some index)
    : ∃ step, FirstAt P steps index step := by
  obtain ⟨hlt, hholds, hfirst⟩ := List.findIdx?_eq_some_iff_getElem.mp h
  refine ⟨steps[index], List.getElem?_eq_getElem hlt, (hp _).mp hholds, ?_⟩
  intro earlier hearlier other hother
  obtain ⟨_, heq⟩ := List.getElem?_eq_some_iff.mp hother
  rw [← hp, ← heq]
  exact hfirst earlier hearlier

theorem soughtAt_of_ownerOf? {s : Sequence} {stepId index : Nat} (h : s.ownerOf? stepId = some index)
    : ∃ step, SoughtAt stepId s.steps index step := by
  unfold ownerOf? at h
  cases hown : s.steps.findIdx? fun step => step.id == stepId with
  | some other =>
    rw [hown] at h
    rw [← Option.some.inj h]
    obtain ⟨step, hfirst⟩ := firstAt_of_findIdx? (P := (·.id = stepId)) (fun _ => beq_iff_eq) hown
    exact ⟨step, .own hfirst⟩
  | none =>
    rw [hown] at h
    obtain ⟨step, hfirst⟩ := firstAt_of_findIdx? (Step.contains_iff_has · stepId) h
    refine ⟨step, .under ?_ hfirst⟩
    intro other hmem
    have := List.findIdx?_eq_none_iff.mp hown other hmem
    simpa using this

theorem ownerOf?_eq_none_iff (s : Sequence) (stepId : Nat)
    : s.ownerOf? stepId = none ↔ ∀ step ∈ s.steps, ¬step.Has stepId := by
  unfold ownerOf?
  rw [Option.orElse_eq_none, List.findIdx?_eq_none_iff, List.findIdx?_eq_none_iff]
  simp only [← Step.contains_iff_has, Bool.not_eq_true]
  constructor
  . exact fun h => h.2
  . intro hnone
    refine ⟨?_, hnone⟩
    intro step hmem
    rw [← Bool.not_eq_true]
    intro hid
    have := hnone step hmem
    rw [contains_of_id hid] at this
    contradiction

theorem seek_toOption (s : Sequence) (stepId : Nat)
    : (s.seek stepId).toOption
        =
      (s.ownerOf? stepId).map fun index =>
        { s with cursor := if index = 0 then none else some (index - 1) } := by
  unfold seek
  cases s.ownerOf? stepId with
  | none => rfl
  | some index => cases index <;> rfl

theorem dated?_eq_none_iff (s : Sequence) (date : Instant)
    : s.dated? date = none ↔ ∀ step ∈ s.steps, ¬step.Sets date := by
  unfold dated?
  rw [List.findIdx?_eq_none_iff]
  simp only [decide_eq_false_iff_not, Step.date?_eq_some_iff]

end Sequence

namespace Recital

variable {ρ : Type} [RandomSource ρ]

/--
The move does what `cued?` is: it puts the cursor elsewhere and changes nothing else, or it fails and
changes nothing at all.
-/
structure Cues (r : Recital ρ) (move : Sequence.Move) (cued? : Option Sequence) : Prop where
  fails : cued? = none → r.take move = r
  moves {cued : Sequence} :
    cued? = some cued →
      r.take move = { r with sequence := cued }
        ∧ cued = { r.sequence with cursor := cued.cursor }

theorem cues_of_take {r : Recital ρ} {move : Sequence.Move} {cued? : Option Sequence}
    (htake : r.take move = { r with sequence := cued?.getD r.sequence })
    (hcursor : ∃ cursor, r.take move = { r with sequence := { r.sequence with cursor } })
    : r.Cues move cued? := by
  constructor
  . intro hnone
    rw [htake, hnone]
    rfl
  . intro cued hcued
    rw [hcued, Option.getD_some] at htake
    obtain ⟨cursor, hcue⟩ := hcursor
    have hsame : cued = { r.sequence with cursor } :=
      congrArg Recital.sequence (htake.symm.trans hcue)
    refine ⟨htake, ?_⟩
    rw [hsame]

/--
With the cursor put behind the step at `index`, or before all steps, the step after that comes next.
-/
theorem given_after_cue {r : Recital ρ} {move : Sequence.Move} {cued : Sequence}
    (h : r.sequence.Coherent) (hexhausted : r.sequence.exhausted = false)
    (htake : r.take move = { r with sequence := cued })
    (hcued : cued = { r.sequence with cursor := cued.cursor })
    : ((r.take move).take .next).given = r.given ++ [r.sequence.steps[cued.nextIndex]?] := by
  have hcoherent : cued.Coherent := by
    rw [hcued]
    exact h.withCursor _
  have hgoes : cued.exhausted = false := by
    rw [hcued]
    exact hexhausted
  have hsteps : cued.steps = r.sequence.steps := by rw [hcued]
  have hgiven := next_given (r := { r with sequence := cued }) hcoherent
  dsimp only at hgiven
  rw [hgoes, if_neg Bool.false_ne_true, hsteps] at hgiven
  rw [htake]
  exact hgiven

/--
Cueing decides the next step of a sequence that is played in order, whatever went before. After a
cue to a step, what is sought comes next, and after a cue to a date, the step behind the first one
that sets the date, if there is one behind it. A cue fails if there is nothing of the kind, and in no
case does it change anything but the cursor.
-/
theorem run_cue (id : String) (steps : List Step) (repeats : Bool) (count : Option Nat)
    (grouping : Option String) (source : ρ) (moves : List Sequence.Move)
    : let start : Sequence := { id, steps, repeats, count, grouping }
      let r := ({ sequence := start, source } : Recital ρ).run moves
      let s := r.sequence
      let after (move : Sequence.Move) := ((r.take move).take .next).given
      (∀ stepId,
          r.Cues (.seek stepId) (s.seek stepId).toOption
            ∧ ((s.seek stepId).toOption = none ↔ ∀ step ∈ steps, ¬step.Has stepId)
            ∧ ((s.seek stepId).toOption ≠ none →
                ∃ index step,
                  Sequence.SoughtAt stepId steps index step
                    ∧ (s.exhausted = false → after (.seek stepId) = r.given ++ [some step])))
        ∧ ∀ date,
            r.Cues (.matchDate date) (s.matchDate? date)
              ∧ (s.matchDate? date = none ↔ ∀ step ∈ steps, ¬step.Sets date)
              ∧ (s.matchDate? date ≠ none →
                  ∃ index step,
                    Sequence.FirstAt (Step.Sets date) steps index step
                      ∧ (s.exhausted = false → ∀ following, steps[index + 1]? = some following →
                          after (.matchDate date) = r.given ++ [some following])) := by
  intro start r s after
  have hstart : start.Coherent := ⟨rfl, by simp [start], by simp [start], by simp [start]⟩
  have h : s.Coherent := run_coherent moves hstart
  have hsteps : s.steps = steps :=
    congrArg Sequence.steps (run_rewind moves { sequence := start, source })
  constructor
  . intro stepId
    have hcues : r.Cues (.seek stepId) (s.seek stepId).toOption :=
      cues_of_take rfl (r.take_seek_eq stepId)
    refine ⟨hcues, ?_, ?_⟩
    . rw [Sequence.seek_toOption, Option.map_eq_none_iff, Sequence.ownerOf?_eq_none_iff, hsteps]
    . intro hfound
      obtain ⟨cued, hcued⟩ := Option.ne_none_iff_exists'.mp hfound
      obtain ⟨htake, hsame⟩ := hcues.moves hcued
      rw [Sequence.seek_toOption, Option.map_eq_some_iff] at hcued
      obtain ⟨index, howner, hcursor⟩ := hcued
      obtain ⟨step, hsought⟩ := Sequence.soughtAt_of_ownerOf? howner
      rw [hsteps] at hsought
      refine ⟨index, step, hsought, ?_⟩
      intro hexhausted
      have hnext : cued.nextIndex = index := by
        rw [← hcursor]
        cases index with
        | zero => rfl
        | succ => rfl
      dsimp only [after]
      rw [given_after_cue h hexhausted htake hsame, hnext, hsteps, hsought.get]
  . intro date
    have hcues : r.Cues (.matchDate date) (s.matchDate? date) :=
      cues_of_take rfl (r.take_matchDate_eq date)
    refine ⟨hcues, ?_, ?_⟩
    . rw [Sequence.matchDate?_eq, Option.map_eq_none_iff, Sequence.dated?_eq_none_iff, hsteps]
    . intro hfound
      obtain ⟨cued, hcued⟩ := Option.ne_none_iff_exists'.mp hfound
      obtain ⟨htake, hsame⟩ := hcues.moves hcued
      rw [Sequence.matchDate?_eq, Option.map_eq_some_iff] at hcued
      obtain ⟨index, hdated, hcursor⟩ := hcued
      obtain ⟨step, hfirst⟩ := Sequence.firstAt_of_findIdx? (P := Step.Sets date)
        (fun step => decide_eq_true_iff.trans (step.date?_eq_some_iff date)) hdated
      rw [hsteps] at hfirst
      refine ⟨index, step, hfirst, ?_⟩
      intro hexhausted following hfollowing
      have hnext : cued.nextIndex = index + 1 := by
        rw [← hcursor]
        rfl
      dsimp only [after]
      rw [given_after_cue h hexhausted htake hsame, hnext, hsteps, hfollowing]

end Recital

end Narrative
