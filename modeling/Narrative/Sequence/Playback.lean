import Narrative.Sequence.Ordered
import Narrative.Sequence.Shuffled

/-!
This module contains the advance of a sequence by one step, and the cues that set where it goes on.
-/

namespace Narrative

inductive SequenceError where
  | stepNotFound (sequenceId : String) (stepId : Nat)
deriving Repr, DecidableEq

def SequenceError.message : SequenceError → String
  | stepNotFound sequenceId stepId =>
    "step " ++ toString stepId ++ " not found in sequence " ++ sequenceId

namespace Sequence

variable {ρ : Type} [RandomSource ρ]

def next? (s : Sequence) (source : ρ) : Option (Step × Sequence × ρ) :=
  if s.steps.isEmpty || s.exhausted then
    none
  else if s.shuffle then
    s.nextShuffled? source
  else
    s.nextOrdered?.map fun (step, s) => (step, s, source)

def ownerOf? (s : Sequence) (stepId : Nat) : Option Nat :=
  s.steps.findIdx? (fun step => step.id == stepId)
    <|> s.steps.findIdx? (fun step => step.contains stepId)

def seek (s : Sequence) (stepId : Nat) : Except SequenceError Sequence :=
  match s.ownerOf? stepId with
  | none => .error (.stepNotFound s.id stepId)
  | some 0 => .ok { s with cursor := none }
  | some (index + 1) => .ok { s with cursor := some index }

def matchDate? (s : Sequence) (date : Instant) : Option Sequence :=
  match s.steps.findIdx? (fun step => step.date? = some date) with
  | none => none
  | some index => some { s with cursor := some index }

end Sequence

end Narrative
