import Narrative.Step

/-!
This module contains sequences: steps in order, how often and in which order they are played, and how
far playback has come.
-/

namespace Narrative

structure Sequence where
  id : String
  steps : List Step := []
  cursor : Option Nat := none
  repeats : Bool := false
  count : Option Nat := none
  shuffle : Bool := false
  grouping : Option String := none
  completions : Nat := 0
  used : List Nat := []
  percent : Float := 0.0
  completed : Bool := false
  exhausted : Bool := false
deriving Inhabited

namespace Sequence

def size (s : Sequence) : Nat :=
  s.steps.length

def push (s : Sequence) (step : Step) : Sequence :=
  { s with steps := s.steps ++ [step] }

def currentStep? (s : Sequence) : Option Step :=
  s.cursor.bind fun index => s.steps[index]?

def reset (s : Sequence) : Sequence :=
  { s with cursor := none, completed := false, exhausted := false, percent := 0.0 }

def rewind (s : Sequence) : Sequence :=
  { s.reset with completions := 0, used := [] }

def countReached (s : Sequence) : Bool :=
  match s.count with
  | none => false
  | some count => s.completions ≥ count

end Sequence

end Narrative
