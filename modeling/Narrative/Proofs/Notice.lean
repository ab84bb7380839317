import Narrative.Proofs.Authored
import Narrative.Proofs.Carry
import Narrative.Proofs.Finish
import Narrative.Proofs.Stall
import Narrative.Proofs.Steps

/-!
This module contains whether a player notices that it has nothing more to play. It does not where the
sequence at the top level has no steps, and where a cue has left that sequence behind its last step.
-/

namespace Narrative

def Instruction.cues (i : Instruction) (index : Nat) (date : Instant) : Prop :=
  ∃ autoStart id, i.command = .setSequence (some date) autoStart ∧ i.target = .sequence index id

namespace Sequence

theorem Authored.coherent {s : Sequence} (h : s.Authored) (hshuffle : s.shuffle = false)
    : s.Coherent := by
  have hreset : s.reset.Coherent := .reset hshuffle
  rw [← h.fresh]
  exact hreset.rewind

/--
A sequence that is not exhausted and was authored in a script has no pause between its passes.
-/
theorem Coherent.completed_eq_false {s : Sequence} (h : s.Coherent)
    (hsingle : s.repeats = false → s.count = none) (hexhausted : s.exhausted = false)
    : s.completed = false := by
  rw [← Bool.not_eq_true]
  intro hcompleted
  have hpaused := h.paused hcompleted hexhausted
  unfold isPaused at hpaused
  cases hrepeats : s.repeats with
  | true => simp [hrepeats] at hpaused
  | false => simp [hrepeats, hsingle hrepeats] at hpaused

theorem ready_iff {s : Sequence} (hcoherent : s.shuffle = false → s.Coherent)
    (hsingle : s.repeats = false → s.count = none) (hexhausted : s.exhausted = false)
    : (s.isAble || s.startsOver) = true
        ↔
      s.steps ≠ [] ∧ (s.shuffle = true ∨ s.isStranded = false) := by
  unfold isAble startsOver
  rw [hexhausted]
  cases hshuffle : s.shuffle with
  | true =>
    cases s.steps with
    | nil => simp
    | cons => simp
  | false =>
    have h := hcoherent hshuffle
    have hcompleted := h.completed_eq_false hsingle hexhausted
    rw [← Bool.not_eq_true, isStranded_iff, hcompleted]
    simp only [Bool.not_false, Bool.and_true, Bool.false_or, Bool.and_false, Bool.false_and,
      Bool.or_false, Bool.and_eq_true, Bool.not_eq_true', List.isEmpty_eq_false_iff,
      decide_eq_true_eq, Bool.false_eq_true, false_or, true_and, not_and, Nat.not_le]
    exact and_congr_right fun hsteps => ⟨fun hlt _ => hlt, fun hlt => hlt hsteps⟩

end Sequence

namespace Score

def instructions (s : Score) : List Instruction :=
  s.sequences.flatMap fun sequence => Step.instructionsOfAll sequence.steps

/--
A step cues the sequence to a date that is found at its last step first.
-/
def CuesLast (s : Score) (index : Nat) : Prop :=
  ∃ sequence date, s.sequences[index]? = some sequence ∧ sequence.shuffle = false
    ∧ (∃ i ∈ s.instructions, i.cues index date)
    ∧ sequence.dated? date = some (sequence.size - 1)

/--
The sequence at a place of `start`, however far it has been played.
-/
structure Played (start : Score) (index : Nat) (s : Sequence) : Prop where
  authored : start.sequences[index]? = some s.rewind
  coherent : s.shuffle = false → s.Coherent
  cued : s.shuffle = false → s.isStranded = true → start.CuesLast index

namespace Played

variable {start : Score} {index : Nat} {s : Sequence}

theorem of_authored (h : start.Authored) (hget : start.sequences[index]? = some s)
    : start.Played index s := by
  have hauthored := h s (List.mem_of_getElem? hget)
  refine ⟨hauthored.fresh.symm ▸ hget, hauthored.coherent, ?_⟩
  intro _ hstranded
  rw [← hauthored.fresh, Sequence.isStranded_of_cursor_eq_none rfl] at hstranded
  contradiction

theorem next {ρ : Type} [RandomSource ρ] (h : start.Played index s) {after : Sequence}
    {source left : ρ} {step : Step} (hnext : s.next? source = some (step, after, left))
    : start.Played index after := by
  have hsame := Sequence.next?_rewind hnext
  have hadvanced (hafter : after.shuffle = false)
      : s.Coherent ∧ s.exhausted = false ∧ after = s.advanced := by
    have hshuffle : s.rewind.shuffle = false := by
      rw [← hsame]
      exact hafter
    have hcoherent := h.coherent hshuffle
    refine ⟨hcoherent, ?_⟩
    rw [hcoherent.next?_eq] at hnext
    split at hnext
    . contradiction
    . next hexhausted =>
      obtain ⟨_, _, hmoved⟩ := Option.map_eq_some_iff.mp hnext
      rw [Bool.not_eq_true] at hexhausted
      exact ⟨hexhausted, (Prod.mk.inj (Prod.mk.inj hmoved).2).1.symm⟩
  refine ⟨hsame.symm ▸ h.authored, ?_, ?_⟩
  . intro hafter
    obtain ⟨hcoherent, hexhausted, hmoved⟩ := hadvanced hafter
    rw [hmoved]
    exact hcoherent.advanced hexhausted
  . intro hafter hstranded
    obtain ⟨_, hexhausted, hmoved⟩ := hadvanced hafter
    rw [hmoved, Sequence.isStranded_advanced hexhausted] at hstranded
    contradiction

theorem cue (h : start.Played index s) {atDate : Option Instant}
    (hcue : ∀ date, atDate = some date → ∃ i ∈ start.instructions, i.cues index date)
    : start.Played index ((atDate.bind s.matchDate?).getD s) := by
  rw [Sequence.cue_eq]
  split
  . exact h
  . next place hplace =>
    refine ⟨h.authored, fun hshuffle => (h.coherent hshuffle).withCursor _, ?_⟩
    intro hshuffle hstranded
    obtain ⟨date, hdate, hdated⟩ := Option.bind_eq_some_iff.mp hplace
    have hlt := Sequence.dated?_lt hdated
    rw [Sequence.isStranded_withCursor hlt, Bool.and_eq_true, decide_eq_true_eq] at hstranded
    refine ⟨s.rewind, date, h.authored, hshuffle, hcue date hdate, ?_⟩
    change s.dated? date = some (s.size - 1)
    rw [hdated, ← hstranded.2]
    rfl

theorem reset (h : start.Played index s) : start.Played index s.reset := by
  refine ⟨h.authored, fun hshuffle => .reset hshuffle, ?_⟩
  intro _ hstranded
  rw [Sequence.isStranded_of_cursor_eq_none rfl] at hstranded
  contradiction

theorem closed (ρ : Type) [RandomSource ρ] (start : Score)
    : Sequence.Closed ρ (fun step => step.instructions ⊆ start.instructions) start.Played where
  substep h hmem := List.Subset.trans (Step.instructions_subset hmem) h
  given {index s step} h hmem := by
    intro i hi
    refine List.mem_flatMap.mpr ⟨s.rewind, List.mem_of_getElem? h.authored, ?_⟩
    rw [Step.instructionsOfAll_eq]
    exact List.mem_flatMap.mpr ⟨step, hmem, hi⟩
  next h hnext := h.next hnext
  cue {step atDate autoStart index id s} hstep hcommand htarget h := by
    apply h.cue
    intro date hdate
    rw [hdate] at hcommand
    exact ⟨_, hstep step.instruction_mem, autoStart, id, hcommand, htarget⟩
  reset h := h.reset

end Played

end Score

namespace Player

variable {ρ : Type} [RandomSource ρ]

def isGated (now : Instant) (p : Player ρ) : Bool :=
  !p.score.options.allowInputDuringDelay && p.score.isBusy now

/--
A step is played at the next tick, and on the next request unless delayed steps hold it back.
-/
def Advances (p : Player ρ) : Prop :=
  ∀ clock : Clock ρ, (p.performance.next clock).1.isSome = true
    ∧ (p.isGated (p.performance.read clock).1 = false → (p.request clock).1 = true)

/--
The player is finished, or waits for a step, or has one to play.
-/
def Notices (p : Player ρ) : Prop :=
  p.isFinished = false → p.score.timeline.dispatches = [] → p.Advances

variable {p : Player ρ}

theorem advances_iff : p.Advances ↔ p.score.played?.any p.score.isReady = true := by
  have hnext (clock : Clock ρ)
      : (p.performance.next clock).1.isSome = p.score.played?.any p.score.isReady :=
    Performance.next_isSome clock p.performance
  constructor
  . intro h
    rw [← hnext (Clock.held default)]
    exact (h (Clock.held default)).1
  . intro h clock
    refine ⟨(hnext clock).trans h, ?_⟩
    intro hfree
    have hfree : (!(p.performance.read clock).2.score.options.allowInputDuringDelay
        && (p.performance.read clock).2.score.isBusy (p.performance.read clock).1) = false := hfree
    unfold Player.request Performance.request
    dsimp only
    rw [hfree, if_neg Bool.false_ne_true, Performance.next_isSome]
    exact h

omit [RandomSource ρ] in
theorem Placed.exists_current (h : p.Placed) (hstarted : p.started = true)
    (hfinished : p.isFinished = false) (hwaiting : p.score.timeline.dispatches = [])
    : p.score.Steered
        ∧ ∃ index sequence, p.score.current = some index
          ∧ p.score.sequences[index]? = some sequence
          ∧ sequence.exhausted = false
          ∧ p.score.played? = some index := by
  have hover : ¬p.score.Over := by
    intro hover
    rw [h.isFinished_iff.mpr ⟨hover, Or.inl hstarted⟩] at hfinished
    contradiction
  cases h with
  | untouched _ hnot => simp [hstarted] at hnot
  | ended hscore => contradiction
  | steered hscore =>
    refine ⟨hscore, ?_⟩
    have htop : ∃ index, p.score.topLevel? = some index ∧ p.score.isExhausted index = false := by
      by_contra hnone
      apply hover
      refine ⟨hscore.queue, Or.inr hscore.current, ?_, hwaiting⟩
      intro index htop
      rw [← Bool.not_eq_false]
      exact fun hexhausted => hnone ⟨index, htop, hexhausted⟩
    obtain ⟨index, htop, hexhausted⟩ := htop
    obtain ⟨hindex, hlt⟩ := Score.topLevel?_eq_some_iff.mp htop
    have hget := List.getElem?_eq_getElem hlt
    refine ⟨index, p.score.sequences[index], ?_, hget, ?_, ?_⟩
    . rw [hscore.current, hindex]
    . rw [← Score.isExhausted_eq hget]
      exact hexhausted
    . unfold Score.played? Score.front?
      rw [hscore.queue]
      dsimp only
      rw [htop]
      dsimp only
      rw [hexhausted, if_neg Bool.false_ne_true]

/--
A player that does not notice is one whose current sequence has no step to give.
-/
theorem Placed.notices_iff (h : p.Placed) (hstarted : p.started = true) {start : Score}
    (hstart : start.Authored) {Q : Step → Prop} (hplayed : p.score.Carries Q start.Played)
    : p.Notices
        ↔
      p.isFinished = true ∨ p.score.timeline.dispatches ≠ []
        ∨ ∃ sequence, p.score.currentSequence? = some sequence ∧ sequence.steps ≠ []
            ∧ (sequence.shuffle = true ∨ sequence.isStranded = false) := by
  unfold Notices
  cases hfinished : p.isFinished with
  | true => simp
  | false =>
    by_cases hwaiting : p.score.timeline.dispatches = []
    . obtain ⟨_, index, sequence, hcurrent, hget, hexhausted, hchosen⟩ :=
        h.exists_current hstarted hfinished hwaiting
      have hsequence := hplayed.sequences hget
      have hauthored := hstart _ (List.mem_of_getElem? hsequence.authored)
      have hready : p.score.isReady index = (sequence.isAble || sequence.startsOver) := by
        unfold Score.isReady Score.isAble Score.startsOver
        rw [hget]
        rfl
      have hsame : p.score.currentSequence? = some sequence := by
        unfold Score.currentSequence?
        rw [hcurrent]
        exact hget
      rw [advances_iff, hchosen, Option.any_some, hready,
        Sequence.ready_iff hsequence.coherent hauthored.single hexhausted, hsame]
      simp [hwaiting]
    . simp [hwaiting]

theorem Placed.still (h : p.Placed) (hstarted : p.started = true) (hnot : ¬p.Notices)
    : p.isFinished = false ∧ p.score.Still := by
  unfold Notices at hnot
  rw [Classical.not_imp, Classical.not_imp, advances_iff] at hnot
  obtain ⟨hfinished, hwaiting, hidle⟩ := hnot
  obtain ⟨hsteered, index, _, hcurrent, _, _, hchosen⟩ :=
    h.exists_current hstarted hfinished hwaiting
  rw [hchosen, Option.any_some, Bool.not_eq_true] at hidle
  refine ⟨hfinished, hsteered.queue, ?_, ?_, hwaiting⟩
  . intro top htop
    right
    rw [hsteered.current, (Score.topLevel?_eq_some_iff.mp htop).1]
  . intro other hother
    rw [hcurrent] at hother
    rw [← Option.some.inj hother]
    exact hidle

end Player

namespace Sitting

variable {ρ : Type} [RandomSource ρ]

/--
A player that has started notices when nothing more can happen, unless the sequence that it plays has
no steps or stands behind its last step in the middle of a pass. Where no sequence is empty and none is
cued to its last step it always does. Where it does not, nothing is recorded any more, and yet it is
never finished.
-/
theorem run_notices_iff (config : CommandLine.Config) (text : String) (start : Instant) (chance : ρ)
    (actions : List (Player.Action ρ))
    : let opened : Sitting ρ := { player := config.player text start chance }
      let s := opened.run actions
      let p := s.player
      (p.started = true →
          (p.Notices
              ↔
            p.isFinished = true ∨ p.score.timeline.dispatches ≠ []
              ∨ ∃ sequence, p.score.currentSequence? = some sequence ∧ sequence.steps ≠ []
                  ∧ (sequence.shuffle = true ∨ sequence.isStranded = false)))
        ∧ ((∀ sequence ∈ opened.score.sequences, sequence.steps ≠ []) →
            (∀ index, ¬opened.score.CuesLast index) → p.started = true → p.Notices)
        ∧ (p.started = true → ¬p.Notices →
            ∀ later, (s.run later).log = s.log ∧ (s.run later).player.isFinished = false) := by
  intro opened s p
  obtain ⟨parts, hopening, hauthored⟩ := config.player_eq_opening text start chance
  have hopened : opened = opening start parts chance := congrArg (Sitting.mk · []) hopening
  have hauthored : opened.score.Authored := hauthored
  have hplaced : p.Placed := by
    apply run_placed
    rw [hopened]
    exact opening_placed start parts chance
  let script (step : Step) : Prop := step.instructions ⊆ opened.score.instructions
  have hplayed : p.score.Carries script opened.score.Played := by
    have hclosed := Score.Played.closed ρ opened.score
    apply (Performance.carries_steady hclosed).sitting (fun h => ⟨h.sequences, h.waiting⟩)
    refine ⟨.of_authored hauthored, ?_⟩
    intro task _ _ hmem
    have huntouched : opened.score.Untouched :=
      hopened ▸ Score.assembled_untouched start parts
    change task ∈ opened.score.timeline.tasks at hmem
    rw [huntouched.tasks] at hmem
    exact nomatch hmem
  refine ⟨fun hstarted => hplaced.notices_iff hstarted hauthored hplayed, ?_, ?_⟩
  . intro hsteps hcues hstarted hfinished hwaiting
    refine (hplaced.notices_iff hstarted hauthored hplayed).mpr ?_ hfinished hwaiting
    obtain ⟨_, index, sequence, hcurrent, hget, _⟩ :=
      hplaced.exists_current hstarted hfinished hwaiting
    have hsequence := hplayed.sequences hget
    refine Or.inr (Or.inr ⟨sequence, ?_, ?_, ?_⟩)
    . unfold Score.currentSequence?
      rw [hcurrent]
      exact hget
    . exact hsteps sequence.rewind (List.mem_of_getElem? hsequence.authored)
    . cases hshuffle : sequence.shuffle with
      | true => exact Or.inl rfl
      | false =>
        right
        rw [← Bool.not_eq_true]
        exact fun hstranded => hcues index (hsequence.cued hshuffle hstranded)
  . intro hstarted hnot later
    obtain ⟨hfinished, hstill⟩ := hplaced.still hstarted hnot
    have hlater := (Rests.refl (s := s) hstill).run later
    refine ⟨hlater.log, ?_⟩
    rw [hlater.isFinished_eq hstill.waiting (Or.inl hstarted)]
    exact hfinished

/--
The script has a title, a credit and a description, and no line besides.
-/
theorem isFinished_eq_false_and_not_notices
    : let config : CommandLine.Config :=
        { script := "script.txt", format := .text, delimiter := "\n", options := {}, timeScale := 1.0,
          mode := .play, maxSteps := none, seed := none, logJson := false }
      let opened : Sitting SeededSource :=
        { player := config.player "T\nC\nD" default (SeededSource.ofSeed 0) }
      let p := (opened.run [.play (Clock.held default)]).player
      p.started = true ∧ p.isFinished = false ∧ ¬p.Notices := by
  intro config opened p
  have hstarted : p.started = true := by decide +kernel
  have hfinished : p.isFinished = false := by decide +kernel
  refine ⟨hstarted, hfinished, ?_⟩
  intro h
  have hadvances := h hfinished (by decide +kernel) (Clock.held default)
  have hnone : (p.performance.next (Clock.held default)).1.isSome = false := by decide +kernel
  rw [hnone] at hadvances
  exact Bool.false_ne_true hadvances.1

end Sitting

end Narrative
