import Narrative.Score.Basic

/-!
This module contains the resolution of references: what every instruction of a score acts on, found
by id among the items of the score.
-/

namespace Narrative.Score

def characterTarget (s : Score) (reference : Option String) : Target :=
  match reference with
  | none => .unresolved
  | some id =>
    match s.characterNamed? id with
    | some index => .character index id
    | none => .unresolved

def locationTarget (s : Score) (id : String) : Target :=
  match s.locationNamed? id with
  | some index => .location index id
  | none => .unresolved

def sequenceTarget (s : Score) (id : String) : Target :=
  match s.sequenceNamed? id with
  | some index => .sequence index id
  | none => .unresolved

def targetOf (s : Score) (i : Instruction) : Target :=
  match i.command with
  | .narrate => .placeholder true
  | .speak _ | .think | .sing _ | .choice => s.characterTarget i.characterRef
  | .setLocation => s.locationTarget (Text.trimmed i.content)
  | .setSequence .. | .sample | .reset => s.sequenceTarget (Text.trimmed i.content)
  | _ =>
    match i.characterRef with
    | some id => s.characterTarget (some id)
    | none => .placeholder false

def destinationOf (s : Score) (i : Instruction) : Option Destination :=
  match i.command with
  | .choice =>
    match i.kind, i.destinationRef with
    | some "sequence", some id => (s.sequenceNamed? id).map fun index => .sequence index id
    | some "url", some address => some (.url address)
    | _, _ => none
  | _ => i.destination

def resolve (s : Score) (i : Instruction) : Instruction :=
  { i with target := s.targetOf i, destination := s.destinationOf i }

def init (s : Score) : Score :=
  { s with
    sequences := s.sequences.map fun sequence =>
      { sequence with steps := Step.mapAll s.resolve sequence.steps } }

end Narrative.Score
