import Narrative.Sequence.Basic

/-!
This module contains the playback of sequences whose steps are played in order.
-/

namespace Narrative.Sequence

/--
The end of a pass. A repeating sequence starts over, and any other stops, as does one that has
reached its count. Below its count a sequence that does not repeat waits for a reset.
-/
def endPass (s : Sequence) : Sequence :=
  let s := { s with completions := s.completions + 1 }
  if s.repeats then
    if s.countReached then { s with completed := true, exhausted := true } else s.reset
  else if s.count.isNone || s.countReached then
    { s with completed := true, exhausted := true }
  else
    { s with completed := true }

def nextIndex (s : Sequence) : Nat :=
  match s.cursor with
  | none => 0
  | some index => index + 1

def moveTo (s : Sequence) (index : Nat) : Sequence :=
  { s with cursor := some index, percent := Float.ofNat index / Float.ofNat s.size }

def nextOrdered? (s : Sequence) : Option (Step × Sequence) :=
  let s := if s.completed && s.repeats then s.reset else s
  match s.steps[s.nextIndex]? with
  | none => none
  | some step =>
    let after := s.moveTo s.nextIndex
    some (step, if s.nextIndex + 1 ≥ s.size then after.endPass else after)

end Narrative.Sequence
