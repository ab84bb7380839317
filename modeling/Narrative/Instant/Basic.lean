import Narrative.Decimal.Binary
import Narrative.Instant.Calendar

/-!
This module contains instants of coordinated universal time, their order, and the arithmetic of
durations. A leap second has no second of its own: its instants are those of the second before with
a fraction of one second or more.
-/

namespace Narrative

structure Instant where
  seconds : Int
  nanos : Nat
  nanos_lt : nanos < 2000000000 := by omega
deriving Repr, DecidableEq

namespace Instant

instance : Inhabited Instant := ⟨⟨0, 0, by decide⟩⟩

def rank (t : Instant) : Int :=
  t.seconds * 2000000000 + t.nanos

instance : LE Instant := ⟨fun a b => a.rank ≤ b.rank⟩
instance : LT Instant := ⟨fun a b => a.rank < b.rank⟩
instance (a b : Instant) : Decidable (a ≤ b) := inferInstanceAs (Decidable (a.rank ≤ b.rank))
instance (a b : Instant) : Decidable (a < b) := inferInstanceAs (Decidable (a.rank < b.rank))

theorem le_iff_rank_le {a b : Instant} : a ≤ b ↔ a.rank ≤ b.rank :=
  Iff.rfl

theorem lt_iff_rank_lt {a b : Instant} : a < b ↔ a.rank < b.rank :=
  Iff.rfl

theorem eq_of_rank_eq {a b : Instant} (h : a.rank = b.rank) : a = b := by
  obtain ⟨s, n, hn⟩ := a
  obtain ⟨s', n', hn'⟩ := b
  simp only [rank] at h
  have hs : s = s' := by omega
  subst hs
  have hn : n = n' := by omega
  subst hn
  rfl

def max (a b : Instant) : Instant :=
  if a ≤ b then b else a

def dayNumber (t : Instant) : Int :=
  t.seconds.fdiv 86400

def secondOfDay (t : Instant) : Nat :=
  (t.seconds.fmod 86400).toNat

def ofCivil (day : CivilDay) (hour minute second fraction : Nat) (h : fraction < 1000000000) :
    Instant :=
  let start := day.toDayNumber * 86400 + hour * 3600 + minute * 60
  if second = 60 then ⟨start + 59, 1000000000 + fraction, by omega⟩
  else ⟨start + second, fraction, by omega⟩

def last : Instant :=
  ofCivil ⟨CivilDay.lastYear, 12, 31⟩ 23 59 59 999999999 (by decide)

def inRange (t : Instant) : Bool :=
  (⟨CivilDay.firstYear, 1, 1⟩ : CivilDay).toDayNumber ≤ t.dayNumber
    && t.dayNumber ≤ (⟨CivilDay.lastYear, 12, 31⟩ : CivilDay).toDayNumber

def ofNanos (seconds : Int) (nanos : Int) : Instant :=
  ⟨seconds + nanos.fdiv 1000000000, (nanos.fmod 1000000000).toNat, by
    have := Int.fmod_lt_of_pos nanos (b := 1000000000) (by decide)
    omega⟩

def shift (t : Instant) (duration : Int) : Instant :=
  let seconds := duration.tdiv 1000000000
  let nanos := duration.tmod 1000000000
  if t.nanos < 1000000000 then
    ofNanos (t.seconds + seconds) (t.nanos + nanos)
  -- within a leap second the seconds stand still, and going on from there leaves it behind
  else if h : seconds > 0 ∨ (nanos > 0 ∧ t.nanos + nanos ≥ 2000000000) then
    ofNanos (t.seconds + seconds) (t.nanos - 1000000000 + nanos)
  else if seconds < 0 then
    ofNanos (t.seconds + 1 + seconds) (t.nanos - 1000000000 + nanos)
  else
    ⟨t.seconds, (t.nanos + nanos).toNat, by
      have := t.nanos_lt
      omega⟩

def shift? (t : Instant) (duration : Int) : Option Instant :=
  if (t.shift duration).inRange then some (t.shift duration) else none

def after (t : Instant) (ms : Float) : Instant :=
  if ms.isFinite && ms > 0.0 then
    (t.shift? (Decimal.roundSize (ms * 1000.0) * 1000)).getD last
  else
    t

def nanosBetween (earlier later : Instant) : Int :=
  let seconds := later.seconds - earlier.seconds
  let leap : Int :=
    if later.secondOfDay > earlier.secondOfDay ∧ earlier.nanos ≥ 1000000000 then 1
    else if later.secondOfDay < earlier.secondOfDay ∧ later.nanos ≥ 1000000000 then -1
    else 0
  (seconds + leap) * 1000000000 + (later.nanos - earlier.nanos)

def wait (now due : Instant) : Nat :=
  (nanosBetween now due).toNat

end Instant

end Narrative
