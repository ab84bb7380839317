import Narrative.Clock
import Narrative.Sequence.Playback

/-!
This module contains sources that are seen in part: chance kept apart from time, and a source that
takes note of what is read from it. A sequence only sees the part that it draws from.
-/

namespace Narrative

/--
Chance and time apart from one another.
-/
structure Apart (κ τ : Type) where
  chance : κ
  time : τ

/--
A source and the instants that were read from it so far.
-/
structure Noted (ρ : Type) where
  source : ρ
  readings : List Instant := []

namespace RandomSource

variable {ρ σ : Type} [RandomSource ρ] [RandomSource σ]

/--
What is drawn from a source depends on a part of it, and changes only this part.
-/
def SeenBy (part : ρ → σ) : Prop :=
  ∀ source low high,
    draw (part source) low high = ((draw source low high).1, part (draw source low high).2)

instance : RandomSource (Apart ρ τ) where
  draw source low high :=
    let (number, chance) := draw source.chance low high
    (number, { source with chance })

instance : RandomSource (Noted ρ) where
  draw noted low high :=
    let (number, source) := draw noted.source low high
    (number, { noted with source })

theorem seenBy_chance {τ : Type} : SeenBy (Apart.chance : Apart ρ τ → ρ) :=
  fun _ _ _ => rfl

theorem seenBy_noted (readings : List Instant)
    : SeenBy (fun source : ρ => Noted.mk source readings) :=
  fun _ _ _ => rfl

end RandomSource

namespace Clock

/--
The clock that only looks at the time, and leaves chance alone.
-/
def apart {κ τ : Type} (clock : Clock τ) : Clock (Apart κ τ) where
  read source :=
    let (now, time) := clock.read source.time
    (now, { source with time })

def noted {ρ : Type} (clock : Clock ρ) : Clock (Noted ρ) where
  read noted :=
    let (now, source) := clock.read noted.source
    (now, { source, readings := noted.readings ++ [now] })

end Clock

namespace Sequence

open RandomSource (SeenBy)

variable {ρ σ : Type} [RandomSource ρ] [RandomSource σ] {part : ρ → σ}

theorem drawUnused_seenBy (h : SeenBy part) (used : List Nat) (size attempts : Nat) (source : ρ)
    : drawUnused used size attempts (part source)
        =
      ((drawUnused used size attempts source).1,
        part (drawUnused used size attempts source).2) := by
  induction attempts generalizing source with
  | zero => rfl
  | succ attempts ih =>
    unfold drawUnused
    rw [h]
    dsimp only
    split
    . apply ih
    . rfl

theorem drawIndex_seenBy (h : SeenBy part) (s : Sequence) (source : ρ)
    : s.drawIndex (part source) = ((s.drawIndex source).1, part (s.drawIndex source).2) := by
  unfold drawIndex
  rw [drawUnused_seenBy h]
  generalize drawUnused s.used s.size (s.size * attemptsPerStep) source = drawn
  match drawn with
  | (some _, _) => rfl
  | (none, _) => rfl

theorem next?_seenBy (h : SeenBy part) (s : Sequence) (source : ρ)
    : s.next? (part source)
        =
      (s.next? source).map fun (step, after, left) => (step, after, part left) := by
  unfold next?
  split
  . rfl
  . split
    . unfold nextShuffled?
      rw [drawIndex_seenBy h]
      dsimp only
      cases s.steps[(s.drawIndex source).1]? with
      | none => rfl
      | some => rfl
    . cases s.nextOrdered? with
      | none => rfl
      | some => rfl

end Sequence

end Narrative
