import Narrative.Step

/-!
This module contains grouping patterns, by which the steps of a sequence are dealt into groups. A
pattern is read one symbol per pulse: `x` places a step, `&` places one that appends to what is
shown, and any other symbol is a rest.
-/

namespace Narrative.Script

/--
A place for a step in a group: how many pulses after the start of the group, and whether the step
appends to what is shown.
-/
structure Slot where
  position : Nat
  append : Bool
deriving Repr, DecidableEq

def Slot.ofSymbol? (position : Nat) (symbol : Char) : Option Slot :=
  match symbol with
  | 'x' | 'X' => some ⟨position, false⟩
  | '&' => some ⟨position, true⟩
  | _ => none

def slots (position : Nat) : (symbols : List Char) → List Slot
  | [] => []
  | symbol :: symbols => (Slot.ofSymbol? position symbol).toList ++ slots (position + 1) symbols

/--
Read the symbols from `position` on, until they or the elements run out. The result is the group that
is placed and the elements that are left.
-/
def readGroup (position : Nat) : (symbols : List Char) → (elements : List α) →
    List (Slot × α) × List α
  | _, [] => ([], [])
  | [], elements => ([], elements)
  | symbol :: symbols, element :: elements =>
    match Slot.ofSymbol? position symbol with
    | some slot =>
      let (group, left) := readGroup (position + 1) symbols elements
      ((slot, element) :: group, left)
    | none => readGroup (position + 1) symbols (element :: elements)

theorem readGroup_eq (position : Nat) (symbols : List Char) (elements : List α)
    : readGroup position symbols elements
        =
      ((slots position symbols).zip elements, elements.drop (slots position symbols).length) := by
  induction symbols generalizing position elements with
  | nil => cases elements <;> rfl
  | cons symbol symbols ih =>
    cases elements with
    | nil => simp [readGroup]
    | cons element elements =>
      unfold readGroup slots
      cases Slot.ofSymbol? position symbol with
      | none => apply ih
      | some slot => simp [ih]

/--
A pattern with slots is read over and over as long as elements are left.
-/
def planGroups (pattern : List Char) (h : slots 0 pattern ≠ []) :
    (elements : List α) → List (List (Slot × α))
  | [] => []
  | element :: elements =>
    let read := readGroup 0 pattern (element :: elements)
    read.1 :: planGroups pattern h read.2
termination_by elements => elements.length
decreasing_by
  have := List.length_pos_iff.mpr h
  rw [readGroup_eq, List.length_drop, List.length_cons]
  omega

def planGroups? (pattern : List Char) (elements : List α) : Option (List (List (Slot × α))) :=
  if h : slots 0 pattern = [] then none else some (planGroups pattern h elements)

def place (slot : Slot) (step : Step) : Step :=
  let placed := match step with
    | .mk i substeps =>
      -- what is under the step keeps its delays
      if slot.position > 0 then .mk { i with delay := Float.ofNat slot.position } substeps
      else .mk i substeps
  if slot.append then placed.markAppend else placed

def group (members : List Step) : Step :=
  .mk
    { id := 0
      command := .group
      content := String.join (members.map Step.content) }
    members

end Narrative.Script
