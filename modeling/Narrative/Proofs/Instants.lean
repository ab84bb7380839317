import Narrative.Instant.Basic

/-!
This module contains how instants follow one another: what comes after an instant by a duration is
later, and never after the last instant.
-/

namespace Narrative.Instant

/--
The duration that a number of milliseconds comes to, in microseconds. What is not a positive number
comes to none.
-/
def micros (ms : Float) : Nat :=
  if ms.isFinite && ms > 0.0 then Decimal.roundSize (ms * 1000.0) else 0

def lastDay : Int :=
  (⟨CivilDay.lastYear, 12, 31⟩ : CivilDay).toDayNumber

theorem rank_last : last.rank = (lastDay * 86400 + 86399) * 2000000000 + 999999999 := by
  decide

theorem ofNanos_seconds (seconds nanos : Int)
    : (ofNanos seconds nanos).seconds = seconds + nanos / 1000000000 := by
  unfold ofNanos
  rw [← Int.fdiv_eq_ediv_of_nonneg _ (by decide)]

theorem ofNanos_nanos (seconds nanos : Int)
    : ((ofNanos seconds nanos).nanos : Int) = nanos % 1000000000 := by
  unfold ofNanos
  dsimp only
  rw [Int.fmod_eq_emod_of_nonneg _ (by decide)]
  omega

/--
A leap second is left behind as soon as the duration goes beyond it.
-/
theorem shift_cases (t : Instant) (duration : Nat)
    : ∃ seconds nanos : Int,
        0 ≤ seconds ∧ 0 ≤ nanos ∧ nanos < 1000000000 ∧ seconds * 1000000000 + nanos = duration
          ∧ ((t.nanos < 1000000000
                ∧ t.shift duration = ofNanos (t.seconds + seconds) (t.nanos + nanos))
            ∨ (1000000000 ≤ t.nanos ∧ (0 < seconds ∨ 2000000000 ≤ t.nanos + nanos)
                ∧ t.shift duration = ofNanos (t.seconds + seconds) (t.nanos - 1000000000 + nanos))
            ∨ (1000000000 ≤ t.nanos ∧ seconds = 0 ∧ (t.shift duration).seconds = t.seconds
                ∧ ((t.shift duration).nanos : Int) = t.nanos + nanos)) := by
  have hnanos := t.nanos_lt
  have hseconds : (duration : Int).tdiv 1000000000 = duration / 1000000000 :=
    Int.tdiv_eq_ediv_of_nonneg (by omega)
  have hrest : (duration : Int).tmod 1000000000 = duration % 1000000000 :=
    Int.tmod_eq_emod_of_nonneg (by omega)
  refine ⟨(duration : Int).tdiv 1000000000, (duration : Int).tmod 1000000000, by omega, by omega,
    by omega, by omega, ?_⟩
  unfold shift
  dsimp only
  by_cases hplain : t.nanos < 1000000000
  . left
    rw [if_pos hplain]
    exact ⟨hplain, rfl⟩
  . right
    rw [if_neg hplain]
    split
    . next hbeyond => exact Or.inl ⟨by omega, by omega, rfl⟩
    . next hwithin =>
      right
      rw [if_neg (by omega)]
      exact ⟨by omega, by omega, rfl, by dsimp only; omega⟩

theorem lt_shift (t : Instant) {duration : Nat} (h : 0 < duration) : t < t.shift duration := by
  have hnanos := t.nanos_lt
  obtain ⟨seconds, nanos, _, _, _, _, hshift⟩ := t.shift_cases duration
  rw [lt_iff_rank_lt]
  unfold rank
  rcases hshift with ⟨_, heq⟩ | ⟨_, _, heq⟩ | ⟨_, _, hsame, hmore⟩
  . rw [heq, ofNanos_seconds, ofNanos_nanos]
    omega
  . rw [heq, ofNanos_seconds, ofNanos_nanos]
    omega
  . rw [hsame, hmore]
    omega

theorem shift_le_last {t : Instant} (h : t ≤ last) {duration : Nat}
    (hrange : (t.shift duration).inRange = true)
    : t.shift duration ≤ last := by
  have hday : (t.shift duration).seconds / 86400 ≤ lastDay := by
    unfold inRange dayNumber at hrange
    rw [Bool.and_eq_true, decide_eq_true_eq, decide_eq_true_eq,
      Int.fdiv_eq_ediv_of_nonneg _ (by decide)] at hrange
    exact hrange.2
  obtain ⟨seconds, nanos, _, _, _, _, hshift⟩ := t.shift_cases duration
  rw [le_iff_rank_le, rank_last] at h ⊢
  unfold rank at h ⊢
  rcases hshift with ⟨_, heq⟩ | ⟨_, _, heq⟩ | ⟨_, _, hsame, hmore⟩
  . have hfraction := ofNanos_nanos (t.seconds + seconds) (t.nanos + nanos)
    rw [← heq] at hfraction
    omega
  . have hfraction := ofNanos_nanos (t.seconds + seconds) (t.nanos - 1000000000 + nanos)
    rw [← heq] at hfraction
    omega
  -- within a leap second the instant stays before the last one
  . have := (t.shift duration).nanos_lt
    omega

variable {t : Instant} (ms : Float)

theorem after_cases
    : (micros ms = 0 ∧ t.after ms = t)
        ∨ t.after ms = last
        ∨ (t.after ms = t.shift (micros ms * 1000 : Nat) ∧ (t.after ms).inRange = true) := by
  unfold after micros
  by_cases hms : (ms.isFinite && ms > 0.0) = true
  . right
    rw [if_pos hms, if_pos hms, Int.natCast_mul]
    unfold shift?
    split
    . next hrange => exact Or.inr ⟨rfl, hrange⟩
    . exact Or.inl rfl
  . left
    rw [if_neg hms, if_neg hms]
    exact ⟨rfl, rfl⟩

theorem after_le_last (h : t ≤ last) : t.after ms ≤ last := by
  rcases after_cases ms (t := t) with ⟨_, hsame⟩ | hlast | ⟨hshift, hrange⟩
  . rw [hsame]
    exact h
  . rw [hlast]
    exact Int.le_refl _
  . rw [hshift] at hrange ⊢
    exact shift_le_last h hrange

theorem lt_after_or_eq_last (h : 0 < micros ms) : t < t.after ms ∨ t.after ms = last := by
  rcases after_cases ms (t := t) with ⟨hnone, _⟩ | hlast | ⟨hshift, _⟩
  . omega
  . exact Or.inr hlast
  . left
    rw [hshift]
    exact t.lt_shift (by omega)

theorem le_max_right (a b : Instant) : b ≤ a.max b := by
  unfold Instant.max
  split
  . exact Int.le_refl _
  . next hless =>
    rw [le_iff_rank_le] at hless ⊢
    omega

theorem max_le {a b c : Instant} (ha : a ≤ c) (hb : b ≤ c) : a.max b ≤ c := by
  unfold Instant.max
  split
  . exact hb
  . exact ha

end Narrative.Instant
