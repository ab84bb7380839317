import Narrative.Proofs.Advance
import Narrative.Proofs.Frame

/-!
This module contains when playback finds a step to play, and when it finds none although there are
steps left.
-/

namespace Narrative

namespace Score

def isAble (s : Score) (index : Nat) : Bool :=
  (s.sequences[index]?.map (·.isAble)).getD false

def startsOver (s : Score) (index : Nat) : Bool :=
  (s.sequences[index]?.map (·.startsOver)).getD false

def isReady (s : Score) (index : Nat) : Bool :=
  s.isAble index || s.startsOver index

def NothingLeft (s : Score) : Prop :=
  ∀ index, s.topLevel? = some index ∨ index ∈ s.queue → s.isAble index = false

def front? (s : Score) : Option Nat :=
  match s.queue with
  | [] => s.topLevel?
  | top :: rest => if s.isCompleted top then rest.head? <|> s.topLevel? else some top

/--
The sequence that is advanced: the one whose turn it is, or the one chosen before if that one is
exhausted.
-/
def played? (s : Score) : Option Nat :=
  match s.front? with
  | none => s.current
  | some index => if s.isExhausted index then s.current else some index

theorem choose_current (s : Score) : s.choose.current = s.played? := by
  unfold choose played? front?
  cases s.queue with
  | nil =>
    dsimp
    cases s.topLevel? with
    | none => rfl
    | some => rfl
  | cons top rest =>
    dsimp
    cases s.isCompleted top with
    | true =>
      dsimp
      generalize rest.head?.orElse _ = front
      cases front with
      | none => rfl
      | some => rfl
    | false => rfl

theorem not_ready_of_isExhausted {s : Score} {index : Nat} (h : s.isExhausted index = true)
    : s.isReady index = false := by
  unfold isExhausted at h
  unfold isReady isAble startsOver
  cases hget : s.sequences[index]? with
  | none => rfl
  | some sequence =>
    rw [hget] at h
    have : sequence.exhausted = true := h
    simp [Sequence.isAble, Sequence.startsOver, this]

theorem played?_of_front? {s : Score} {index : Nat} (hfront : s.front? = some index)
    (h : s.isReady index = true)
    : s.played? = some index := by
  unfold played?
  rw [hfront]
  dsimp
  split
  . next hexhausted =>
    rw [not_ready_of_isExhausted hexhausted] at h
    contradiction
  . rfl

end Score

namespace Performance

variable {ρ : Type} [RandomSource ρ]

theorem advance_isSome (clock : Clock ρ) (fire : Firing ρ) (index : Nat) (p : Performance ρ)
    : (p.advance clock fire index).1.isSome = p.score.isReady index := by
  unfold advance Score.isReady Score.isAble Score.startsOver
  split
  . next hget =>
    rw [hget]
    rfl
  . next sequence hget =>
    have hnext := sequence.next?_isSome p.source
    rw [hget]
    dsimp
    rw [← hnext]
    split
    . next hnone =>
      rw [hnone]
      rfl
    . next hsome =>
      rw [hsome]
      rfl

theorem advanceCurrent_isSome (clock : Clock ρ) (p : Performance ρ)
    : (p.advanceCurrent clock).1.isSome
        =
      p.score.current.any p.score.isReady := by
  unfold advanceCurrent
  split
  . next index hcurrent =>
    rw [hcurrent, Option.any_some]
    split
    . next hexhausted =>
      rw [Score.not_ready_of_isExhausted hexhausted]
      rfl
    . apply advance_isSome
  . next hcurrent =>
    rw [hcurrent]
    rfl

theorem next_isSome (clock : Clock ρ) (p : Performance ρ)
    : (p.next clock).1.isSome
        =
      p.score.played?.any p.score.isReady := by
  have hsome := advanceCurrent_isSome clock { p with score := p.score.choose }
  have hcurrent := p.score.choose_current
  obtain ⟨_, _, hchoose⟩ := p.score.choose_eq
  dsimp at hsome
  rw [hcurrent] at hsome
  rw [hchoose] at hsome
  unfold next
  dsimp
  rw [hchoose]
  exact hsome

theorem next_eq_none_iff (clock : Clock ρ) (p : Performance ρ)
    : (p.next clock).1 = none
        ↔
      ∀ index, p.score.played? = some index → p.score.isReady index = false := by
  rw [← Option.isNone_iff_eq_none, ← Option.isSome_eq_false_iff, next_isSome]
  cases p.score.played? with
  | none => simp
  | some index => simp

theorem not_able_of_next_eq_none {clock : Clock ρ} {p : Performance ρ} {index : Nat}
    (h : (p.next clock).1 = none) (hfront : p.score.front? = some index)
    : p.score.isAble index = false := by
  rw [next_eq_none_iff] at h
  cases hready : p.score.isReady index with
  | true =>
    rw [h index (Score.played?_of_front? hfront hready)] at hready
    contradiction
  | false => exact (Bool.or_eq_false_iff.mp hready).1

theorem advance_of_not_ready (clock : Clock ρ) (fire : Firing ρ) {index : Nat} {p : Performance ρ}
    (h : p.score.isReady index = false)
    : p.advance clock fire index = (none, p) := by
  rw [← advance_isSome clock fire] at h
  unfold advance at *
  split
  . rfl
  . split
    . rfl
    . simp_all

theorem advanceCurrent_of_not_ready (clock : Clock ρ) {index : Nat} {p : Performance ρ}
    (hcurrent : p.score.current = some index) (h : p.score.isReady index = false)
    : p.advanceCurrent clock = (none, p) := by
  unfold advanceCurrent
  rw [hcurrent]
  dsimp
  split
  . rfl
  . apply advance_of_not_ready clock _ h

end Performance

namespace Score

/--
The sequence in front of the queue has no step to give and does not leave the queue either, although
steps are left.
-/
def Blocked (s : Score) : Prop :=
  ¬s.NothingLeft
    ∧ ∃ top rest, s.queue = top :: rest
      ∧ s.isCompleted top = false ∧ s.isExhausted top = false ∧ s.isReady top = false

theorem Blocked.choose {s : Score} (h : s.Blocked)
    : s.choose.Blocked ∧ ∃ top, s.choose.current = some top ∧ s.choose.isReady top = false := by
  obtain ⟨hleft, top, rest, hqueue, hcompleted, hexhausted, hready⟩ := h
  have hchoose : s.choose = { s with queue := top :: rest, current := some top } := by
    unfold Score.choose
    rw [hqueue]
    dsimp
    rw [hcompleted]
    simp [hexhausted]
  rw [hchoose, ← hqueue]
  exact ⟨⟨hleft, top, rest, hqueue, hcompleted, hexhausted, hready⟩, top, rfl, hready⟩

theorem Blocked.scheduleTick {s : Score} (h : s.Blocked) (now : Instant)
    : (s.scheduleTick now).Blocked := by
  obtain ⟨_, _, hschedule⟩ := s.scheduleTick_eq now
  rw [hschedule]
  exact h

end Score

namespace Performance

variable {ρ : Type} [RandomSource ρ]

theorem next_of_blocked (clock : Clock ρ) {p : Performance ρ} (h : p.score.Blocked)
    : (p.next clock).1 = none ∧ (p.next clock).2.score.Blocked := by
  obtain ⟨hblocked, top, hcurrent, hready⟩ := h.choose
  have hplayed := advanceCurrent_of_not_ready clock (p := { p with score := p.score.choose })
    hcurrent hready
  unfold next
  rw [hplayed]
  refine ⟨rfl, ?_⟩
  dsimp
  split
  . exact hblocked.scheduleTick _
  . exact hblocked

/--
As long as nothing but advances is asked for, a blocked score stays blocked.
-/
theorem nexts_of_blocked (clocks : List (Clock ρ)) {p : Performance ρ} (h : p.score.Blocked)
    : (clocks.foldl (fun p clock => (p.next clock).2) p).score.Blocked := by
  induction clocks generalizing p with
  | nil => exact h
  | cons clock clocks ih => exact ih (next_of_blocked clock h).2

/--
No step is played only when none is left, unless the sequence that is to be advanced has no step to
give while another one has. Without a queue that does not happen.
-/
theorem nothingLeft_of_next_eq_none_iff (clock : Clock ρ) (p : Performance ρ)
    : (((p.next clock).1 = none → p.score.NothingLeft)
          ↔
        p.score.NothingLeft
          ∨ ∃ index, p.score.played? = some index ∧ p.score.isReady index = true)
        ∧ (p.score.queue = [] → (p.next clock).1 = none → p.score.NothingLeft) := by
  constructor
  . rw [next_eq_none_iff]
    constructor
    . intro h
      by_cases hready : ∃ index, p.score.played? = some index ∧ p.score.isReady index = true
      . exact Or.inr hready
      . apply Or.inl
        apply h
        intro index hplayed
        cases hindex : p.score.isReady index with
        | true => exact absurd ⟨index, hplayed, hindex⟩ hready
        | false => rfl
    . rintro (hleft | ⟨index, hplayed, hready⟩) hnone
      . exact hleft
      . rw [hnone index hplayed] at hready
        contradiction
  . intro hqueue hnone index hindex
    rw [hqueue] at hindex
    have hfront : p.score.front? = some index := by
      unfold Score.front?
      rw [hqueue]
      simpa using hindex
    exact not_able_of_next_eq_none hnone hfront

/--
An aside without steps never completes, so it never leaves the queue. However often an advance is
asked for, none gives a step, although the sequence at the top level has its step left.
-/
theorem next_eq_none_and_not_nothingLeft
    : let main : Sequence := { id := "main", steps := [.mk { id := 0 } []] }
      let aside : Sequence := { id := "aside" }
      let clock : Clock SeededSource := Clock.held default
      let p := ((Chronicle.opening default [.sequence main, .sequence aside] (.ofSeed 0)).run
        [.act clock (.playSequence "aside")]).performance
      (p.next clock).1 = none
        ∧ ¬p.score.NothingLeft
        ∧ ∀ (clocks : List (Clock SeededSource)) (last : Clock SeededSource),
            let later := clocks.foldl (fun p clock => (p.next clock).2) p
            (later.next last).1 = none ∧ ¬later.score.NothingLeft := by
  intro main aside clock p
  have hleft : ¬p.score.NothingLeft := by
    intro h
    have := h 0 (Or.inl rfl)
    contradiction
  have hblocked : p.score.Blocked := ⟨hleft, 1, [], rfl, rfl, rfl, rfl⟩
  refine ⟨(next_of_blocked clock hblocked).1, hleft, ?_⟩
  intro clocks last later
  have hlater : later.score.Blocked := nexts_of_blocked clocks hblocked
  exact ⟨(next_of_blocked last hlater).1, hlater.1⟩

end Performance

end Narrative
