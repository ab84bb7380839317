import Narrative.Proofs.Alike
import Narrative.Proofs.Invariant

/-!
This module contains the reset of a score. Whatever was played before, after a reset the score
answers its host as it did at the start, as far as chance is the same.
-/

namespace Narrative

def Turn.adds {ρ : Type} : Turn ρ → Bool
  | .act .. | .add (.setting _) => false
  | _ => true

theorem Score.choose_congr {a b : Score} (hsequences : a.sequences = b.sequences)
    (hsequenceIndex : a.sequenceIndex = b.sequenceIndex) (hcurrent : a.current = b.current)
    (hqueue : a.queue = b.queue)
    : a.choose.queue = b.choose.queue ∧ a.choose.current = b.choose.current := by
  unfold choose topLevel? isCompleted isExhausted
  rw [hsequences, hsequenceIndex, hcurrent, hqueue]
  dsimp only
  split
  . exact ⟨rfl, rfl⟩
  . exact ⟨rfl, rfl⟩

namespace Performance.Alike

variable {κ τ υ : Type} {before earlier : List (String × Step)}
variable {p : Performance (Apart κ τ)} {q : Performance (Apart κ υ)}

theorem sequences_eq (h : Alike (fun _ => False) before earlier p q)
    : p.score.sequences = q.score.sequences :=
  List.ext_getElem? fun index => h.sequences index not_false

theorem choose (h : Alike (fun _ => False) before earlier p q)
    : Alike (fun _ => False) before earlier { p with score := p.score.choose }
        { q with score := q.score.choose } := by
  obtain ⟨hqueue, hcurrent⟩ :=
    Score.choose_congr h.sequences_eq h.sequenceIndex h.current h.queue
  obtain ⟨_, _, hp⟩ := p.score.choose_eq
  obtain ⟨_, _, hq⟩ := q.score.choose_eq
  rw [hp, hq] at hqueue hcurrent ⊢
  exact { h with queue := hqueue, current := hcurrent }

theorem findSequence (h : Alike (fun _ => False) before earlier p q) (id : String)
    : q.score.findSequence id = p.score.findSequence id := by
  unfold Score.findSequence Score.sequenceNamed?
  rw [h.sequences_eq]

theorem answer [RandomSource κ] (h : Alike (fun _ => False) before earlier p q) (clock : Clock τ)
    (other : Clock υ) (call : Call)
    : (p.answer clock.apart call).1 = (q.answer other.apart call).1
        ∧ Alike (fun _ => False) before earlier (p.answer clock.apart call).2
            (q.answer other.apart call).2 := by
  cases call with
  | next =>
    obtain ⟨hstep, hafter⟩ := h.choose.next clock other fun _ _ => not_false
    exact ⟨congrArg Except.ok hstep, hafter⟩
  | playSequence id =>
    dsimp only [Performance.answer, playSequence]
    rw [h.findSequence]
    cases p.score.findSequence id with
    | error => exact ⟨rfl, h⟩
    | ok index =>
      have hqueued : Alike (fun _ => False) before earlier { p with score := p.score.enqueue index }
          { q with score := q.score.enqueue index } :=
        { h with current := rfl, queue := congrArg (index :: ·) h.queue }
      obtain ⟨hstep, hafter⟩ := hqueued.start clock other not_false
      exact ⟨congrArg Except.ok hstep, hafter⟩
  | setSequence id atDate autoStart =>
    dsimp only [Performance.answer, setSequence, select]
    rw [h.findSequence]
    cases p.score.findSequence id with
    | error => exact ⟨rfl, h⟩
    | ok index =>
      have hselected := h.select index atDate
      cases autoStart with
      | false => exact ⟨rfl, hselected⟩
      | true =>
        obtain ⟨hstep, hafter⟩ := hselected.start clock other not_false
        exact ⟨congrArg Except.ok hstep, hafter⟩

theorem answers [RandomSource κ] (calls : List (Clock τ × Clock υ × Call))
    (h : Alike (fun _ => False) before earlier p q)
    : let given := p.answers (calls.map fun call => (call.1.apart, call.2.2))
      let expected := q.answers (calls.map fun call => (call.2.1.apart, call.2.2))
      given.1 = expected.1 ∧ Alike (fun _ => False) before earlier given.2 expected.2 := by
  induction calls generalizing p q with
  | nil => exact ⟨rfl, h⟩
  | cons first calls ih =>
    obtain ⟨clock, other, call⟩ := first
    obtain ⟨hfirst, hafter⟩ := h.answer clock other call
    obtain ⟨hrest, hlast⟩ := ih hafter
    exact ⟨congrArg₂ List.cons hfirst hrest, hlast⟩

end Performance.Alike

variable {ρ : Type} [RandomSource ρ]

/--
What was authored of the sequences stays as it is.
-/
theorem stable_rewound (authored : List Sequence)
    : Performance.Stable (fun _ => True)
        (fun p : Performance ρ => p.score.sequences.map Sequence.rewind = authored) where
  kept clock := {
    substep := fun _ _ => trivial
    draw := fun h hget hnext =>
      ⟨trivial, (map_set_eq hget (Sequence.next?_rewind hnext)).trans h⟩
    postpone := fun _ _ h => h
    carryOut := by
      intro p step sequenceId _ _ h
      have hrecorded : (p.record clock sequenceId step).score.sequences.map Sequence.rewind
          = authored := h
      unfold Performance.carryOut Score.steer
      dsimp only
      split
      . exact (map_modify_eq (Sequence.cue_rewind _) _).trans hrecorded
      . exact (map_modify_eq (f := Sequence.reset) (fun _ => rfl) _).trans hrecorded
      . exact hrecorded
  }
  read _ h := h
  choose {p} h := by
    obtain ⟨_, _, hchoose⟩ := p.score.choose_eq
    rw [hchoose]
    exact h
  selectAt atDate h _ := (map_modify_eq (Sequence.cue_rewind atDate) _).trans h
  enqueue h _ := h
  trigger _ h := h
  setPlaying h := h
  scheduleTick {p} now h _ := by
    obtain ⟨_, _, hschedule⟩ := p.score.scheduleTick_eq now
    rw [hschedule]
    exact h
  stop {p} h := by
    obtain ⟨_, _, hstop⟩ := p.score.stop_eq
    rw [hstop]
    exact h
  pop h _ := ⟨fun _ => trivial, h⟩
  spend h := h
  reset h := by
    rw [← h]
    unfold Score.reset
    dsimp only
    rw [List.map_map]
    rfl

namespace Chronicle

open Performance (answers)

theorem take_rewound {authored : List Sequence} {turn : Turn ρ} (hturn : turn.adds = false)
    {c : Chronicle ρ} (h : c.score.sequences.map Sequence.rewind = authored)
    : (c.take turn).score.sequences.map Sequence.rewind = authored := by
  cases turn with
  | act clock operation =>
    apply (stable_rewound authored).perform clock operation (p := c.performance)
    . exact fun _ => h
    . exact h
  | add part =>
    cases part with
    | setting setting =>
      obtain ⟨_, _, _, _, hset⟩ := c.score.set_eq setting
      change (c.score.set setting).sequences.map Sequence.rewind = authored
      rw [hset]
      exact h
    | _ => simp [Turn.adds] at hturn
  | init => simp [Turn.adds] at hturn

theorem run_rewound {authored : List Sequence} {turns : List (Turn ρ)}
    (hturns : ∀ turn ∈ turns, turn.adds = false) {c : Chronicle ρ}
    (h : c.score.sequences.map Sequence.rewind = authored)
    : (c.run turns).score.sequences.map Sequence.rewind = authored := by
  apply run_keeps (P := (·.score.sequences.map Sequence.rewind = authored))
    (fun hturn h => take_rewound hturn h) hturns h

/--
Whatever is played and set from the start on, once the score is reset it gives the same answers as
at the start, records the same steps and comes to the same sequences, cursors and queue, for any
calls and whatever time it is, as long as the draws are the same.
-/
theorem reset_answers_eq {κ τ υ : Type} [RandomSource κ] (now : Instant) (parts : List Part)
    (hparts : ∀ sequence, .sequence sequence ∈ parts → sequence.rewind = sequence)
    (source : Apart κ τ) (turns : List (Turn (Apart κ τ)))
    (hturns : ∀ turn ∈ turns, turn.adds = false) (time : υ)
    (calls : List (Clock τ × Clock υ × Call))
    : let start := Score.assembled now parts
      let p := ((opening now parts source).run turns).performance
      let reset : Performance (Apart κ τ) := { p with score := p.score.reset }
      let fresh : Performance (Apart κ υ) := ⟨start, ⟨p.source.chance, time⟩⟩
      let given := reset.answers (calls.map fun call => (call.1.apart, call.2.2))
      let expected := fresh.answers (calls.map fun call => (call.2.1.apart, call.2.2))
      given.1 = expected.1
        ∧ given.2.score.sequences = expected.2.score.sequences
        ∧ given.2.score.sequenceIndex = expected.2.score.sequenceIndex
        ∧ given.2.score.current = expected.2.score.current
        ∧ given.2.score.queue = expected.2.score.queue
        ∧ given.2.score.told = p.score.told ++ expected.2.score.told := by
  intro start p reset fresh given expected
  have hauthored : ∀ sequence ∈ start.sequences, sequence.rewind = id sequence := by
    intro sequence hmem
    obtain ⟨added, steps, hadded, heq⟩ := Score.mem_assembled hmem
    rw [heq]
    exact congrArg (fun s : Sequence => { s with steps }) (hparts added hadded)
  have hstart : start.sequences.map Sequence.rewind = start.sequences := by
    rw [List.map_congr_left hauthored, List.map_id]
  have hrewound : reset.score.sequences = start.sequences := run_rewound hturns hstart
  have halike : Performance.Alike (fun _ => False) p.score.told [] reset fresh := by
    obtain ⟨_, _, _, _, _, _, _, hassembled⟩ := Score.assembled_eq now parts
    have hfresh : start = _ := hassembled
    constructor
    . exact fun index _ => congrArg (·[index]?) hrewound
    . exact (congrArg Score.sequenceIndex hfresh).symm
    . exact (congrArg Score.current hfresh).symm
    . exact (congrArg Score.queue hfresh).symm
    . rfl
    . exact fun _ => ⟨[], (List.append_nil _).symm, congrArg Score.told hfresh⟩
    . exact fun _ _ => False.elim
    . exact fun _ _ => False.elim
  obtain ⟨hgiven, hafter⟩ := halike.answers calls
  obtain ⟨told, hbefore, hfresh⟩ := hafter.told fun _ => not_false
  refine ⟨hgiven, hafter.sequences_eq, hafter.sequenceIndex, hafter.current, hafter.queue, ?_⟩
  rw [hbefore, hfresh, List.nil_append]

/--
Before the reset the shuffled sequence has dealt a part of its second hand, while a delayed step of
the other one waits and the score plays by itself.
-/
theorem reset_answers_eq_shuffled
    : let theme : Sequence :=
        { id := "theme", shuffle := true, steps := [.mk { id := 0 } [], .mk { id := 1 } []] }
      let coda : Sequence := { id := "coda", steps := [.mk { id := 2, delay := 1.0 } []] }
      let parts : List Part := [.sequence theme, .sequence coda]
      let clock : Clock (Apart SeededSource Unit) := Clock.held default
      let turns : List (Turn (Apart SeededSource Unit)) :=
        [.act clock .play, .act clock .next, .act clock .next, .add (.setting (.timeScale 2.0)),
          .act clock (.playSequence "coda")]
      let calls : List (Clock Unit × Clock Unit × Call) :=
        [(Clock.held default, Clock.held ⟨9, 0, by decide⟩, .next),
          (Clock.held default, Clock.held default, .playSequence "coda"),
          (Clock.held default, Clock.held default, .setSequence "other" none true)]
      let start := Score.assembled default parts
      let p := ((opening default parts ⟨.ofSeed 7, ()⟩).run turns).performance
      let given := answers (calls.map fun call => (call.1.apart, call.2.2))
        { p with score := p.score.reset }
      let expected := answers (calls.map fun call => (call.2.1.apart, call.2.2))
        ⟨start, ⟨p.source.chance, ()⟩⟩
      (∀ sequence, .sequence sequence ∈ parts → sequence.rewind = sequence)
        ∧ (∀ turn ∈ turns, turn.adds = false)
        ∧ p.score.sequences.map (·.completions) = [3, 1]
        ∧ p.score.sequences.map (·.used.length) = [1, 0]
        ∧ given.1 = expected.1 := by
  intro theme coda parts clock turns calls start p given expected
  have hparts : ∀ sequence, .sequence sequence ∈ parts → sequence.rewind = sequence := by
    intro sequence hmem
    have hcases : sequence = theme ∨ sequence = coda := by simpa [parts] using hmem
    cases hcases with
    | inl htheme => rw [htheme]; rfl
    | inr hcoda => rw [hcoda]; rfl
  have hturns : ∀ turn ∈ turns, turn.adds = false := by
    simp [turns, Turn.adds]
  have h := reset_answers_eq default parts hparts ⟨.ofSeed 7, ()⟩ turns hturns () calls
  have hgiven := h.1
  exact ⟨hparts, hturns, by decide +kernel, by decide +kernel, hgiven⟩

end Chronicle

end Narrative
