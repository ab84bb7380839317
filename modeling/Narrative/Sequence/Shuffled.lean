import Narrative.RandomSource
import Narrative.Sequence.Basic

/-!
This module contains the playback of shuffled sequences, in which no step comes again before all
others have come.
-/

namespace Narrative.Sequence

variable {ρ : Type} [RandomSource ρ]

def attemptsPerStep : Nat := 64

def drawUnused (used : List Nat) (size : Nat) : (attempts : Nat) → ρ → Option Nat × ρ
  | 0, source => (none, source)
  | attempts + 1, source =>
    let (number, source) := RandomSource.draw source 0 (size - 1)
    if used.contains (number % size) then
      drawUnused used size attempts source
    else
      (some (number % size), source)

def firstUnused (used : List Nat) (size : Nat) : Nat :=
  ((List.range size).find? fun index => !used.contains index).getD 0

def drawIndex (s : Sequence) (source : ρ) : Nat × ρ :=
  match drawUnused s.used s.size (s.size * attemptsPerStep) source with
  | (some index, source) => (index, source)
  -- the source kept giving places that are used
  | (none, source) => (firstUnused s.used s.size, source)

def afterDraw (s : Sequence) (index : Nat) : Sequence :=
  let used := s.used ++ [index]
  let s := { s with
    cursor := some index
    used := if used.length ≥ s.size then [] else used
    completions := s.completions + 1
    completed := true }
  if s.countReached then { s with exhausted := true } else s

def nextShuffled? (s : Sequence) (source : ρ) : Option (Step × Sequence × ρ) :=
  let (index, source) := s.drawIndex source
  match s.steps[index]? with
  | none => none
  | some step => some (step, s.afterDraw index, source)

end Narrative.Sequence
