import Narrative.Proofs.Alike
import Narrative.Proofs.Passes

/-!
This module contains asides: sequences that are called for while another one is being played. An
aside is played to its end, and then the score goes on as if nothing had come between.
-/

namespace Narrative

namespace Sequence

/--
A sequence that can give no more steps has come to its end.
-/
def Ends (s : Sequence) : Prop :=
  s.exhausted = true → s.completed = true

/--
A sequence that is yet to be played, and then only once, in order and without setting any sequence
going or back.
-/
structure Aside (s : Sequence) : Prop extends s.Calm where
  fresh : s.rewind = s
  repeats : s.repeats = false

theorem endPass_ends (s : Sequence) : s.endPass.Ends := by
  unfold endPass
  dsimp only
  split
  . split
    . exact fun _ => rfl
    . exact nofun
  . split
    . exact fun _ => rfl
    . exact fun _ => rfl

theorem next?_ends {ρ : Type} [RandomSource ρ] {s after : Sequence} {source left : ρ} {step : Step}
    (h : s.Ends) (hnext : s.next? source = some (step, after, left))
    : after.Ends := by
  obtain ⟨_, ⟨_, _, _, _, hafter⟩ | ⟨_, hordered, _⟩⟩ := next?_cases hnext
  . rw [hafter, afterDraw_eq]
    exact fun _ => rfl
  . obtain ⟨start, hstart, _, hafter⟩ := nextOrdered?_cases hordered
    have hends : start.Ends := by
      rw [hstart]
      split
      . exact nofun
      . exact h
    rw [hafter]
    split
    . apply endPass_ends
    . exact hends

theorem cue_ends {s : Sequence} (h : s.Ends) (atDate : Option Instant)
    : ((atDate.bind s.matchDate?).getD s).Ends := by
  rw [cue_eq]
  split
  . exact h
  . exact h

namespace Aside

variable {s : Sequence}

theorem coherent (h : s.Aside) : s.Coherent :=
  .of_fresh h.fresh h.shuffle

theorem after_calm (h : s.Aside) (calls : Nat) : (s.after 0 calls).Calm :=
  h.toCalm.of_rewind_eq (s.after_rewind 0 calls)

theorem after_completed (h : s.Aside) (hsize : 0 < s.size) (calls : Nat)
    : (s.after 0 calls).completed = decide (s.size ≤ calls) :=
  after_completed_of_not_repeats hsize h.repeats 0 calls

theorem next?_after {ρ : Type} [RandomSource ρ] (h : s.Aside) {calls : Nat}
    (hcalls : calls < s.size) (source : ρ)
    : ∃ step, s.steps[calls]? = some step
        ∧ (s.after 0 calls).next? source = some (step, s.after 0 (calls + 1), source) := by
  have hgoes : s.goesOn 0 (0 + calls / s.size) = true := by
    rw [goesOn_iff_lt (limit?_of_not_repeats h.repeats 0), Nat.div_eq_of_lt hcalls]
    rfl
  obtain ⟨step, hget, hnext⟩ :=
    Recital.next?_after (Nat.zero_lt_of_lt hcalls) h.coherent hgoes source
  rw [Nat.mod_eq_of_lt hcalls] at hget
  exact ⟨step, hget, hnext⟩

end Aside

end Sequence

namespace Score

/--
The sequence is to go on next: it is the first in the queue and not completed, or nothing is queued
and it is the one at the top level and not exhausted.
-/
def Awaits (s : Score) (index : Nat) : Prop :=
  (∃ rest, s.queue = index :: rest ∧ s.isCompleted index = false)
    ∨ (s.queue = [] ∧ s.topLevel? = some index ∧ s.isExhausted index = false)

namespace Awaits

variable {s : Score} {index : Nat}

theorem front (h : s.Awaits index) : (s.queue.head? <|> s.topLevel?) = some index := by
  obtain ⟨_, hqueue, _⟩ | ⟨hqueue, htop, _⟩ := h
  . rw [hqueue]
    rfl
  . rw [hqueue, htop]
    rfl

theorem choose (h : s.Awaits index) (hexhausted : s.isExhausted index = false)
    : s.choose = { s with current := some index } := by
  obtain ⟨_, hqueue, hcompleted⟩ | ⟨hqueue, htop, _⟩ := h
  . exact choose_of_not_completed hqueue hcompleted hexhausted
  . rw [choose_of_queue_eq_nil hqueue, htop]
    dsimp only
    rw [if_neg (Bool.eq_false_iff.mp hexhausted)]

end Awaits

end Score

namespace Performance

variable {κ τ : Type}

/--
`p` is what `start` has become with an aside on top of it that has given `calls` steps. What the
world is like, what waits and what was recorded may differ as well.
-/
structure Interrupted (start : Performance (Apart κ τ)) (index : Nat) (aside : Sequence)
    (calls : Nat) (p : Performance (Apart κ τ)) : Prop where
  called : start.score.sequences[index]? = some aside
  sequences : p.score.sequences = start.score.sequences.set index (aside.after 0 calls)
  sequenceIndex : p.score.sequenceIndex = start.score.sequenceIndex
  queue : p.score.queue = index :: start.score.queue
  chance : p.source.chance = start.source.chance

namespace Interrupted

variable {start p : Performance (Apart κ τ)} {index calls : Nat} {aside : Sequence}

theorem getElem?_self (h : Interrupted start index aside calls p)
    : p.score.sequences[index]? = some (aside.after 0 calls) := by
  rw [h.sequences, List.getElem?_set_self (List.getElem?_eq_some_iff.mp h.called).1]

theorem getElem?_other (h : Interrupted start index aside calls p) {other : Nat}
    (hother : other ≠ index)
    : p.score.sequences[other]? = start.score.sequences[other]? := by
  rw [h.sequences, List.getElem?_set_ne hother.symm]

theorem enqueue (haside : aside.Aside) (hget : start.score.sequences[index]? = some aside)
    : Interrupted start index aside 0 { start with score := start.score.enqueue index } := by
  refine ⟨hget, ?_, rfl, rfl, rfl⟩
  obtain ⟨hlt, hsame⟩ := List.getElem?_eq_some_iff.mp hget
  rw [Sequence.after_zero haside.fresh, ← hsame]
  exact (List.set_getElem_self hlt).symm

theorem scheduleTick (h : Interrupted start index aside calls p) (clock : Clock τ)
    : Interrupted start index aside calls (p.scheduleTick clock.apart) := by
  obtain ⟨_, _, hschedule⟩ := p.scheduleTick_eq clock.apart
  rw [hschedule]
  exact { h with }

/--
The aside gives its next step, and nothing else is played.
-/
theorem advance [RandomSource κ] (haside : aside.Aside) (h : Interrupted start index aside calls p)
    (hcalls : calls < aside.size) (clock : Clock τ)
    : (p.advance clock.apart (fire clock.apart) index).1 = aside.steps[calls]?
        ∧ Interrupted start index aside (calls + 1)
            (p.advance clock.apart (fire clock.apart) index).2 := by
  obtain ⟨step, hstep, hnext⟩ := haside.next?_after hcalls p.source
  have hdrawn : Interrupted start index aside (calls + 1)
      { p with score := { p.score with
        sequences := p.score.sequences.set index (aside.after 0 (calls + 1)) } } := by
    refine ⟨h.called, ?_, h.sequenceIndex, h.queue, h.chance⟩
    dsimp only
    rw [h.sequences, List.set_set]
  have hcalm := haside.steps step (List.mem_of_getElem? hstep)
  unfold Performance.advance
  rw [h.getElem?_self]
  dsimp only
  rw [hnext]
  refine ⟨hstep.symm, ?_⟩
  dsimp only
  unfold execute
  split
  . exact { hdrawn with }
  . apply dispatch_of_calm
    . exact fun _ _ {_} hp => { hp with }
    . exact fun _ _ {_} hp => { hp with }
    . exact hcalm
    . exact hdrawn

theorem next [RandomSource κ] (haside : aside.Aside) (h : Interrupted start index aside calls p)
    (hcalls : calls < aside.size) (clock : Clock τ)
    : (p.next clock.apart).1 = aside.steps[calls]?
        ∧ Interrupted start index aside (calls + 1) (p.next clock.apart).2 := by
  have hcompleted : (aside.after 0 calls).completed = false := by
    rw [haside.after_completed (Nat.zero_lt_of_lt hcalls)]
    exact decide_eq_false (Nat.not_le.mpr hcalls)
  have hexhausted : (aside.after 0 calls).exhausted = false := by
    rw [Sequence.after_exhausted_of_not_repeats (Nat.zero_lt_of_lt hcalls) haside.repeats,
      decide_eq_false (Nat.not_le.mpr hcalls)]
    rfl
  rw [← Score.isCompleted_eq h.getElem?_self] at hcompleted
  rw [← Score.isExhausted_eq h.getElem?_self] at hexhausted
  let chosen : Performance (Apart κ τ) := { p with score := { p.score with current := some index } }
  have hchosen : Interrupted start index aside calls chosen := { h with }
  obtain ⟨hgiven, hplayed⟩ := hchosen.advance haside hcalls clock
  have hcurrent : chosen.advanceCurrent clock.apart
      = chosen.advance clock.apart (fire clock.apart) index := by
    unfold advanceCurrent
    exact if_neg (Bool.eq_false_iff.mp hexhausted)
  unfold Performance.next
  rw [Score.choose_of_not_completed h.queue hcompleted hexhausted]
  dsimp only
  rw [hcurrent]
  refine ⟨hgiven, ?_⟩
  split
  . exact hplayed.scheduleTick clock
  . exact hplayed

/--
The aside gives the steps that it has left.
-/
theorem answers [RandomSource κ] (haside : aside.Aside) (clocks : List (Clock τ)) {calls : Nat}
    {p : Performance (Apart κ τ)} (h : Interrupted start index aside calls p)
    (hcalls : calls + clocks.length = aside.size)
    : let given := p.answers (clocks.map fun clock => (clock.apart, .next))
      given.1 = (aside.steps.drop calls).map (fun step => .ok (some step))
        ∧ Interrupted start index aside aside.size given.2 := by
  induction clocks generalizing calls p with
  | nil =>
    have hover : calls = aside.size := hcalls
    rw [hover] at h ⊢
    exact ⟨by rw [Sequence.size, List.drop_length]; rfl, h⟩
  | cons clock clocks ih =>
    rw [List.length_cons] at hcalls
    have hmore : calls < aside.size := by omega
    obtain ⟨hgiven, hplayed⟩ := h.next haside hmore clock
    obtain ⟨hrest, hover⟩ := ih hplayed (by omega)
    refine ⟨?_, hover⟩
    have hstep : aside.steps[calls]? = some aside.steps[calls] := List.getElem?_eq_getElem hmore
    rw [List.drop_eq_getElem_cons hmore, List.map_cons]
    exact congrArg₂ List.cons (congrArg Except.ok (hgiven.trans hstep)) hrest

theorem called_answers [RandomSource κ] (haside : aside.Aside) {id : String}
    (hfind : start.score.findSequence id = .ok index)
    (hget : start.score.sequences[index]? = some aside) (first : Clock τ) (clocks : List (Clock τ))
    (hclocks : clocks.length + 1 = aside.size)
    : let given := start.answers
        ((first.apart, .playSequence id) :: clocks.map fun clock => (clock.apart, .next))
      given.1 = aside.steps.map (fun step => .ok (some step))
        ∧ Interrupted start index aside aside.size given.2 := by
  have hmore : 0 < aside.size := by omega
  obtain ⟨hgiven, hplayed⟩ := (enqueue haside hget).advance haside hmore first
  obtain ⟨hrest, hover⟩ := hplayed.answers haside clocks (by omega)
  have hstep : aside.steps[0]? = some aside.steps[0] := List.getElem?_eq_getElem hmore
  unfold Performance.answers
  rw [answer_playSequence first.apart hfind]
  refine ⟨?_, hover⟩
  dsimp only
  rw [hgiven, hstep, hrest]
  have hsteps : aside.steps = aside.steps[0] :: aside.steps.drop 1 :=
    List.drop_eq_getElem_cons hmore
  exact (congrArg (List.map fun step => Except.ok (some step)) hsteps).symm

/--
The score makes the same choice as without the aside, which leaves the queue.
-/
theorem choose (haside : aside.Aside) (hsteps : aside.steps ≠ [])
    (h : Interrupted start index aside aside.size p) {target : Nat} (htarget : target ≠ index)
    (hawaits : start.score.Awaits target) (hexhausted : start.score.isExhausted target = false)
    : p.score.choose = { p.score with queue := start.score.queue, current := some target } := by
  have hcompleted : p.score.isCompleted index = true := by
    rw [Score.isCompleted_eq h.getElem?_self,
      haside.after_completed (List.length_pos_iff.mpr hsteps)]
    exact decide_eq_true (Nat.le_refl _)
  have hsame : p.score.isExhausted target = start.score.isExhausted target := by
    unfold Score.isExhausted
    rw [h.getElem?_other htarget]
  have htop : p.score.topLevel? = start.score.topLevel? := by
    unfold Score.topLevel?
    rw [h.sequences, h.sequenceIndex, List.length_set]
  apply Score.choose_of_completed h.queue hcompleted
  . rw [htop]
    exact hawaits.front
  . exact hsame.trans hexhausted

theorem alike (haside : aside.Aside) (hsteps : aside.steps ≠ [])
    (h : Interrupted start index aside aside.size p) {target : Nat} (htarget : target ≠ index)
    (hawaits : start.score.Awaits target) (hexhausted : start.score.isExhausted target = false)
    : Alike (· = index) [] [] { p with score := p.score.choose }
        { start with score := start.score.choose } := by
  rw [h.choose haside hsteps htarget hawaits hexhausted, hawaits.choose hexhausted]
  constructor
  . exact fun _ hother => h.getElem?_other hother
  . exact h.sequenceIndex
  . rfl
  . rfl
  . exact h.chance
  . exact fun hnone => absurd rfl (hnone index)
  . intro other sequence hother hget
    rw [hother] at hget
    rw [← Option.some.inj (h.getElem?_self.symm.trans hget)]
    exact haside.after_calm aside.size
  . intro other sequence hother hget
    rw [hother] at hget
    rw [← Option.some.inj (h.called.symm.trans hget)]
    exact haside.toCalm

end Interrupted

section

variable {ρ : Type} [RandomSource ρ]

theorem kept_queue (clock : Clock ρ) (queue : List Nat)
    : Kept clock (fun _ => True) (fun p => p.score.queue = queue) where
  substep _ _ := trivial
  draw h _ _ := ⟨trivial, h⟩
  postpone _ _ h := h
  carryOut {p step} sequenceId _ _ h := by
    obtain ⟨_, _, _, hsteer⟩ := (p.record clock sequenceId step).score.steer_eq step
    unfold carryOut
    dsimp only
    rw [hsteer]
    exact h

/--
Nothing leaves the queue, nor enters it, once a choice is made.
-/
theorem next_queue (clock : Clock ρ) (p : Performance ρ)
    : (p.next clock).2.score.queue = p.score.choose.queue := by
  have hplayed : (advanceCurrent clock { p with score := p.score.choose }).2.score.queue
      = p.score.choose.queue := by
    unfold advanceCurrent
    split
    . split
      . rfl
      . exact (kept_queue clock p.score.choose.queue).start _ rfl
    . rfl
  unfold next
  dsimp only
  split
  . obtain ⟨_, _, hschedule⟩ :=
      scheduleTick_eq clock (advanceCurrent clock { p with score := p.score.choose }).2
    rw [hschedule]
    exact hplayed
  . exact hplayed

end

end Performance

def Part.Ends : Part → Prop
  | .sequence added => added.Ends
  | _ => True

def Turn.Ends {ρ : Type} : Turn ρ → Prop
  | .add part => part.Ends
  | _ => True

def Score.Ends (s : Score) : Prop :=
  s.Carries (fun _ => True) (fun _ sequence => sequence.Ends)

variable {ρ : Type} [RandomSource ρ]

theorem closed_ends : Sequence.Closed ρ (fun _ => True) (fun _ s => s.Ends) where
  substep _ _ := trivial
  given _ _ := trivial
  next h hnext := Sequence.next?_ends h hnext
  cue _ _ _ h := Sequence.cue_ends h _
  reset _ := nofun

theorem stable_ends : Performance.Stable (fun _ => True) (fun p : Performance ρ => p.score.Ends) :=
  Performance.carries_stable closed_ends (fun atDate h => Sequence.cue_ends h atDate) fun _ => nofun

namespace Score

theorem Ends.add {s : Score} (h : s.Ends) {part : Part} (hpart : part.Ends)
    : (s.add part).Ends := by
  cases part with
  | sequence added =>
    refine ⟨?_, h.waiting⟩
    intro index sequence hget
    cases List.mem_append.mp (List.mem_of_getElem? hget) with
    | inl hold =>
      obtain ⟨_, hget⟩ := List.getElem?_of_mem hold
      exact h.sequences hget
    | inr hnew =>
      rw [List.mem_singleton.mp hnew]
      exact hpart
  | setting setting =>
    obtain ⟨_, _, _, _, hset⟩ := s.set_eq setting
    unfold Score.add
    dsimp only
    rw [hset]
    exact ⟨h.sequences, h.waiting⟩
  | _ => exact ⟨h.sequences, h.waiting⟩

theorem Ends.init {s : Score} (h : s.Ends) : s.init.Ends := by
  refine ⟨?_, h.waiting⟩
  intro index sequence hget
  have hget : (s.sequences.map _)[index]? = some sequence := hget
  rw [List.getElem?_map, Option.map_eq_some_iff] at hget
  obtain ⟨before, hbefore, hsequence⟩ := hget
  have hends : before.Ends := h.sequences hbefore
  rw [← hsequence]
  exact hends

theorem assembled_ends (now : Instant) {parts : List Part} (hparts : ∀ part ∈ parts, part.Ends)
    : (assembled now parts).Ends := by
  constructor
  . intro index sequence hget
    obtain ⟨added, steps, hadded, heq⟩ := mem_assembled (List.mem_of_getElem? hget)
    rw [heq]
    exact hparts _ hadded
  . exact fun _ _ => trivial

/--
A sequence that is to go on next is not exhausted.
-/
theorem Ends.isExhausted_eq_false {s : Score} (h : s.Ends) {index : Nat} (hawaits : s.Awaits index)
    : s.isExhausted index = false := by
  obtain ⟨_, _, hcompleted⟩ | ⟨_, _, hexhausted⟩ := hawaits
  . cases hget : s.sequences[index]? with
    | none =>
      unfold isExhausted
      rw [hget]
      rfl
    | some sequence =>
      rw [isCompleted_eq hget] at hcompleted
      rw [isExhausted_eq hget]
      cases hexhausted : sequence.exhausted with
      | false => rfl
      | true =>
        rw [h.sequences hget hexhausted] at hcompleted
        contradiction
  . exact hexhausted

end Score

namespace Chronicle

open Performance (Interrupted)

theorem take_ends {turn : Turn ρ} (hturn : turn.Ends) {c : Chronicle ρ} (h : c.score.Ends)
    : (c.take turn).score.Ends := by
  cases turn with
  | act clock operation =>
    apply stable_ends.perform clock operation (p := c.performance)
    . exact fun _ => ⟨h.sequences, h.waiting⟩
    . exact h
  | add part => exact h.add hturn
  | init => exact h.init

theorem run_ends {turns : List (Turn ρ)} (hturns : ∀ turn ∈ turns, turn.Ends) {c : Chronicle ρ}
    (h : c.score.Ends)
    : (c.run turns).score.Ends := by
  apply run_keeps (P := (·.score.Ends)) (fun hturn h => take_ends hturn h) hturns h

/--
Wherever a score has come to, an aside gives its steps one by one, and the call after that takes it
from the queue and plays on as if the aside had not been called for: it gives the same step, with
the same draws, and leaves all other sequences, the cursors and the queue the same.
-/
theorem next_after_aside_eq {κ τ : Type} [RandomSource κ] (now : Instant) (parts : List Part)
    (hparts : ∀ part ∈ parts, part.Ends) (source : Apart κ τ) (turns : List (Turn (Apart κ τ)))
    (hturns : ∀ turn ∈ turns, turn.Ends) (id : String) {index target : Nat} {aside : Sequence}
    (haside : aside.Aside) (htarget : target ≠ index) (first last other : Clock τ)
    (clocks : List (Clock τ)) (hclocks : clocks.length + 1 = aside.size)
    : let p := ((opening now parts source).run turns).performance
      let given := p.answers
        ((first.apart, .playSequence id) :: clocks.map fun clock => (clock.apart, .next))
      let resumed := given.2.next last.apart
      let uninterrupted := p.next other.apart
      p.score.findSequence id = .ok index →
      p.score.sequences[index]? = some aside →
      p.score.Awaits target →
      given.1 = aside.steps.map (fun step => .ok (some step))
        ∧ given.2.score.queue = index :: p.score.queue
        ∧ resumed.1 = uninterrupted.1
        ∧ resumed.2.score.queue = p.score.queue
        ∧ uninterrupted.2.score.queue = p.score.queue
        ∧ (∀ i, i ≠ index →
            resumed.2.score.sequences[i]? = uninterrupted.2.score.sequences[i]?)
        ∧ resumed.2.score.sequenceIndex = uninterrupted.2.score.sequenceIndex
        ∧ resumed.2.score.current = uninterrupted.2.score.current
        ∧ resumed.2.source.chance = uninterrupted.2.source.chance := by
  intro p given resumed uninterrupted hfind hget hawaits
  have hends : p.score.Ends := run_ends hturns (Score.assembled_ends now hparts)
  have hexhausted := hends.isExhausted_eq_false hawaits
  have hsteps : aside.steps ≠ [] := by
    apply List.ne_nil_of_length_pos
    exact Nat.lt_of_lt_of_eq (Nat.zero_lt_succ _) hclocks
  obtain ⟨hgiven, hover⟩ := Interrupted.called_answers haside hfind hget first clocks hclocks
  have halike := hover.alike haside hsteps htarget hawaits hexhausted
  have hcurrent : ∀ i, given.2.score.choose.current = some i → i ≠ index := by
    intro i hi
    rw [hover.choose haside hsteps htarget hawaits hexhausted] at hi
    rw [← Option.some.inj hi]
    exact htarget
  obtain ⟨hstep, hafter⟩ := halike.next last other hcurrent
  have hqueue : uninterrupted.2.score.queue = p.score.queue := by
    rw [Performance.next_queue, hawaits.choose hexhausted]
  exact ⟨hgiven, hover.queue, hstep, hafter.queue.trans hqueue, hqueue, hafter.sequences,
    hafter.sequenceIndex, hafter.current, hafter.chance⟩

/--
A chapter that is queued is interrupted where it samples the shuffled theme, by an aside that is
not exhausted after it: a delayed step and a group.
-/
theorem next_after_aside_eq_sampled
    : let theme : Sequence :=
        { id := "theme", shuffle := true, steps := [.mk { id := 0 } [], .mk { id := 1 } []] }
      let sample : Step := .mk { id := 3, command := .sample, content := "theme" } []
      let chapter : Sequence := { id := "chapter", steps := [.mk { id := 2 } [], sample] }
      let leaf : Step := .mk { id := 6, target := .placeholder true } []
      let delayed : Step := .mk { id := 4, target := .placeholder true, delay := 1.0 } []
      let group : Step := .mk { id := 5, command := .group, target := .placeholder false } [leaf]
      let aside : Sequence := { id := "aside", count := some 2, steps := [delayed, group] }
      let parts : List Part := [.sequence theme, .sequence chapter, .sequence aside]
      let clock : Clock Unit := Clock.held default
      let turns : List (Turn (Apart SeededSource Unit)) :=
        [.act clock.apart .play, .act clock.apart (.playSequence "chapter")]
      let p := ((opening default parts ⟨.ofSeed 7, ()⟩).run turns).performance
      let given := p.answers [(clock.apart, .playSequence "aside"), (clock.apart, .next)]
      p.score.queue = [1]
        ∧ p.score.sequences[2]? = some aside
        ∧ given.1 = [.ok (some delayed), .ok (some group)]
        ∧ (given.2.next clock.apart).1 = (p.next clock.apart).1
        ∧ (given.2.next clock.apart).2.source.chance = (p.next clock.apart).2.source.chance := by
  intro theme sample chapter leaf delayed group aside parts clock turns
  have hparts : ∀ part ∈ parts, part.Ends := by
    simp [parts, theme, chapter, aside, Part.Ends, Sequence.Ends]
  have hturns : ∀ turn ∈ turns, turn.Ends := by
    simp [turns, Turn.Ends]
  have hsteps : ∀ step ∈ aside.steps, step.Fits 2 := by decide +kernel
  have haside : aside.Aside := by
    refine ⟨⟨rfl, ?_⟩, rfl, rfl⟩
    intro step hstep depth leaf hreaches
    exact (hsteps step hstep depth leaf hreaches).2
  have h := next_after_aside_eq default parts hparts ⟨.ofSeed 7, ()⟩ turns hturns "aside" haside
    (by decide : 1 ≠ 2) clock clock clock [clock] rfl
  dsimp only at h ⊢
  generalize hp : ((opening default parts ⟨.ofSeed 7, ()⟩).run turns).performance = p at h ⊢
  have hnamed : p.score.sequenceNamed? "aside" = some 2 := by
    rw [← hp]
    decide +kernel
  have hqueue : p.score.queue = [1] := by
    rw [← hp]
    decide +kernel
  have hcompleted : p.score.isCompleted 1 = false := by
    rw [← hp]
    decide +kernel
  have hget : p.score.sequences[2]? = some aside := by
    rw [← hp]
    dsimp only [turns, clock, parts, aside, group, delayed, leaf, chapter, sample, theme]
    rfl
  have hfind : p.score.findSequence "aside" = .ok 2 := by
    unfold Score.findSequence
    rw [hnamed]
  obtain ⟨hgiven, _, hstep, _, _, _, _, _, hchance⟩ :=
    h hfind hget (Or.inl ⟨[], hqueue, hcompleted⟩)
  exact ⟨hqueue, hget, hgiven, hstep, hchance⟩

end Chronicle

end Narrative
