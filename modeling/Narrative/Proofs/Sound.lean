import Narrative.Proofs.Deal
import Narrative.Proofs.Ordered

/-!
This module contains what holds of the state of a sequence at any time: how its cursor, the places
it has drawn and its flags agree with its steps and with one another. Steps may be added at any time.
-/

namespace Narrative

inductive Sequence.Edit where
  | push (step : Step)
  | move (move : Sequence.Move)

namespace Sequence

/--
The state of a sequence agrees with its steps, with its policy and with itself.
-/
structure Sound (s : Sequence) : Prop where
  cursor : ∀ index, s.cursor = some index → index < s.size
  nodup : s.used.Nodup
  places : ∀ place ∈ s.used, place < s.size
  short : s.steps ≠ [] → s.used.length < s.size
  unused : s.shuffle = false → s.used = []
  completed : s.exhausted = true → s.completed = true ∧ 1 ≤ s.completions
  reached : s.exhausted = true → ∀ count, s.count = some count → count ≤ s.completions
  unbounded : s.exhausted = true → s.count = none → s.repeats = false ∧ s.shuffle = false
  paused : s.shuffle = false → s.completed = true → s.exhausted = false →
    s.repeats = false ∧ ∃ count, s.count = some count ∧ s.completions < count

theorem isSpent_iff {s : Sequence}
    : s.isSpent = true
        ↔
      (∀ count, s.count = some count → count ≤ s.completions)
        ∧ (s.count = none → s.repeats = false) := by
  unfold isSpent
  cases s.count with
  | none => simp
  | some count => simp

theorem isPaused_iff {s : Sequence}
    : s.isPaused = true
        ↔
      s.completed = true
        ∧ s.repeats = false
        ∧ ∃ count, s.count = some count ∧ s.completions < count := by
  unfold isPaused
  simp [Option.any_eq_true, and_assoc]

namespace Sound

variable {s : Sequence}

theorem of_fresh (hcursor : s.cursor = none) (hused : s.used = [])
    (hcompleted : s.completed = false) (hexhausted : s.exhausted = false)
    : s.Sound := by
  constructor <;> simp_all [List.length_pos_iff, size]

/--
When it is played in order, the state of a sequence is sound if its flags are coherent and it has
drawn nothing.
-/
theorem of_coherent (h : s.Coherent) (hcursor : ∀ index, s.cursor = some index → index < s.size)
    (hused : s.used = []) (hcompletions : s.exhausted = true → 1 ≤ s.completions)
    : s.Sound where
  cursor := hcursor
  nodup := by simp [hused]
  places := by simp [hused]
  short := by simp [hused, size, List.length_pos_iff]
  unused _ := hused
  completed hexhausted := ⟨h.completed hexhausted, hcompletions hexhausted⟩
  reached hexhausted := (isSpent_iff.mp (h.spent hexhausted)).1
  unbounded hexhausted hcount := ⟨(isSpent_iff.mp (h.spent hexhausted)).2 hcount, h.shuffle⟩
  paused _ hcompleted hexhausted := (isPaused_iff.mp (h.paused hcompleted hexhausted)).2

theorem coherent (h : s.Sound) (hshuffle : s.shuffle = false) : s.Coherent where
  shuffle := hshuffle
  completed hexhausted := (h.completed hexhausted).1
  spent := by
    intro hexhausted
    rw [isSpent_iff]
    refine ⟨h.reached hexhausted, ?_⟩
    intro hcount
    exact (h.unbounded hexhausted hcount).1
  paused := by
    intro hcompleted hexhausted
    rw [isPaused_iff]
    exact ⟨hcompleted, h.paused hshuffle hcompleted hexhausted⟩

theorem hands (h : s.Sound) (hsteps : s.steps ≠ []) : Hands s.size s.used s.used where
  full := ⟨[], rfl, by simp⟩
  nodup := h.nodup
  lt := h.places
  short := h.short hsteps

theorem push (h : s.Sound) (step : Step) : (s.push step).Sound := by
  have hsize : (s.push step).size = s.size + 1 := by simp [Sequence.push, size]
  constructor
  . intro index hcursor
    have := h.cursor index hcursor
    omega
  . apply h.nodup
  . intro place hmem
    have := h.places place hmem
    omega
  . intro _
    rw [hsize]
    change s.used.length < s.size + 1
    by_cases hsteps : s.steps = []
    . have hused : s.used = [] := by
        rw [List.eq_nil_iff_forall_not_mem]
        intro place hmem
        have := h.places place hmem
        simp [size, hsteps] at this
      simp [hused]
    . have := h.short hsteps
      omega
  . apply h.unused
  . apply h.completed
  . apply h.reached
  . apply h.unbounded
  . apply h.paused

theorem withCursor (h : s.Sound) {cursor : Option Nat}
    (hcursor : ∀ index, cursor = some index → index < s.size)
    : Sound { s with cursor } :=
  { h with cursor := hcursor }

theorem reset (h : s.Sound) : s.reset.Sound := by
  constructor
  . simp [Sequence.reset]
  . apply h.nodup
  . apply h.places
  . apply h.short
  . apply h.unused
  all_goals simp [Sequence.reset]

theorem rewind (s : Sequence) : s.rewind.Sound := by
  apply of_fresh <;> rfl

theorem afterDraw (h : s.Sound) (hshuffle : s.shuffle = true) (hexhausted : s.exhausted = false)
    {index : Nat} (hlt : index < s.size) (hnew : index ∉ s.used)
    : (s.afterDraw index).Sound := by
  have hsteps : s.steps ≠ [] := List.length_pos_iff.mp (Nat.zero_lt_of_lt hlt)
  have hhands := (h.hands hsteps).draw hlt hnew
  rw [afterDraw_eq, hexhausted, Bool.false_or]
  constructor
  . intro other hcursor
    rw [← Option.some.inj hcursor]
    exact hlt
  . apply hhands.nodup
  . apply hhands.lt
  . intro _
    apply hhands.short
  . simp [hshuffle]
  . intro _
    exact ⟨rfl, Nat.le_add_left 1 _⟩
  . intro hreached count hcount
    dsimp only at hreached hcount
    simpa [hcount] using hreached
  . intro hreached hcount
    dsimp only at hreached hcount
    simp [hcount] at hreached
  . simp [hshuffle]

theorem moveTo (h : s.Sound) {index : Nat} (hlt : index < s.size) : (s.moveTo index).Sound where
  cursor := by
    intro other hcursor
    rw [← Option.some.inj hcursor]
    exact hlt
  nodup := h.nodup
  places := h.places
  short := h.short
  unused := h.unused
  completed := h.completed
  reached := h.reached
  unbounded := h.unbounded
  paused := h.paused

theorem endPass (h : s.Sound) (hshuffle : s.shuffle = false) (hexhausted : s.exhausted = false)
    : s.endPass.Sound := by
  have hordered : (s.withPasses (s.completions + 1)).shuffle = false := hshuffle
  rw [endPass_eq hexhausted]
  dsimp only
  split
  . apply of_coherent (.reset hordered)
    . simp [Sequence.reset]
    . exact h.unused hshuffle
    . simp [Sequence.reset]
  . next hlast =>
    rw [Bool.not_eq_true] at hlast
    apply of_coherent (.halt hordered hlast)
    . exact h.cursor
    . exact h.unused hshuffle
    . intro _
      apply Nat.le_add_left

theorem advanced (h : s.Sound) (hshuffle : s.shuffle = false) (hexhausted : s.exhausted = false)
    (hlt : s.nextIndex < s.size)
    : s.advanced.Sound := by
  have hmoved := h.moveTo hlt
  unfold Sequence.advanced
  dsimp only
  split
  . apply hmoved.endPass hshuffle hexhausted
  . exact hmoved

end Sound

end Sequence

namespace Recital

open Sequence (Edit Sound)

variable {ρ : Type} [RandomSource ρ]

theorem next_sound {r : Recital ρ} (h : r.sequence.Sound) : r.next.sequence.Sound := by
  cases hshuffle : r.sequence.shuffle with
  | true =>
    unfold next
    split
    . exact h
    . next hnext =>
      obtain ⟨hexhausted, ⟨_, index, hdraw, hstep, hafter⟩ | ⟨hordered, _⟩⟩ :=
        Sequence.next?_cases hnext
      . have hlt : index < r.sequence.size := (List.getElem?_eq_some_iff.mp hstep).1
        have hnew := r.sequence.drawIndex_not_mem r.source
          (h.short (List.ne_nil_of_mem (List.mem_of_getElem? hstep)))
        rw [hdraw] at hnew
        rw [hafter]
        apply h.afterDraw hshuffle hexhausted hlt hnew
      . simp [hshuffle] at hordered
  | false =>
    rw [next_sequence (h.coherent hshuffle)]
    split
    . exact h
    . next hleft =>
      rw [not_or, Bool.not_eq_true, Nat.not_le] at hleft
      apply h.advanced hshuffle hleft.1 hleft.2

theorem take_sound (move : Sequence.Move) {r : Recital ρ} (h : r.sequence.Sound)
    : (r.take move).sequence.Sound := by
  cases move with
  | next => apply next_sound h
  | reset => apply h.reset
  | rewind => apply Sound.rewind
  | seek stepId =>
    dsimp only [take]
    rw [Sequence.seek_eq]
    split
    . exact h
    . next index howner =>
      have hlt := Sequence.ownerOf?_lt howner
      apply h.withCursor
      intro before hcursor
      split at hcursor
      . contradiction
      . rw [← Option.some.inj hcursor]
        omega
  | matchDate date =>
    dsimp only [take]
    rw [Sequence.matchDate?_eq]
    cases hdated : r.sequence.dated? date with
    | none => exact h
    | some index =>
      apply h.withCursor
      intro other hcursor
      rw [← Option.some.inj hcursor]
      exact Sequence.dated?_lt hdated

def edit (r : Recital ρ) (edit : Edit) : Recital ρ :=
  match edit with
  | .push step => { r with sequence := r.sequence.push step }
  | .move move => r.take move

theorem edit_sound (edit : Edit) {r : Recital ρ} (h : r.sequence.Sound)
    : (r.edit edit).sequence.Sound := by
  cases edit with
  | push step => apply h.push
  | move move => apply take_sound move h

theorem foldl_edit_sound (edits : List Edit) {r : Recital ρ} (h : r.sequence.Sound)
    : (edits.foldl edit r).sequence.Sound := by
  induction edits generalizing r with
  | nil => exact h
  | cons edit edits ih => exact ih (edit_sound edit h)

/--
Whatever its policy is, and whatever has been asked of it, the state of a sequence is sound.
-/
theorem edited_sound (id : String) (repeats : Bool) (count : Option Nat) (shuffle : Bool)
    (grouping : Option String) (source : ρ) (edits : List Edit)
    : let start : Sequence := { id, repeats, count, shuffle, grouping }
      (edits.foldl edit { sequence := start, source }).sequence.Sound := by
  apply foldl_edit_sound
  apply Sound.of_fresh <;> rfl

end Recital

end Narrative
