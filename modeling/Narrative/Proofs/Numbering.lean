import Mathlib.Data.List.Nodup
import Narrative.Proofs.Authored
import Narrative.Proofs.Resolution

/-!
This module contains the ids of steps. Those of a document are given out while its elements are read,
so they count the steps from zero in the order of the document, and each of them leads to one step.
-/

namespace Narrative

def Instruction.withId (i : Instruction) (id : Nat) : Instruction :=
  { i with id }

namespace Step

mutual

theorem renumber_ids (next : Nat) (step : Step)
    : (renumber next step).1.instructions.map (·.id) = List.range' next step.instructions.length
        ∧ (renumber next step).2 = next + step.instructions.length := by
  cases step with
  | mk i steps =>
    obtain ⟨hids, hnext⟩ := renumberAll_ids (next + 1) steps
    rw [renumber]
    dsimp only
    rw [instructions, instructions, List.map_cons, hids, hnext, List.length_cons]
    exact ⟨rfl, by omega⟩

theorem renumberAll_ids (next : Nat) (steps : List Step)
    : (instructionsOfAll (renumberAll next steps).1).map (·.id)
          = List.range' next (instructionsOfAll steps).length
        ∧ (renumberAll next steps).2 = next + (instructionsOfAll steps).length := by
  cases steps with
  | nil => exact ⟨rfl, rfl⟩
  | cons step steps =>
    obtain ⟨hids, hnext⟩ := renumber_ids next step
    obtain ⟨hrest, hlast⟩ := renumberAll_ids (renumber next step).2 steps
    rw [renumberAll]
    dsimp only
    rw [instructionsOfAll, instructionsOfAll, List.map_append, hids, hrest, hlast, hnext,
      List.length_append, List.range'_append_1]
    exact ⟨rfl, by omega⟩

end

mutual

theorem renumber_map {f : Instruction → Instruction}
    (hf : ∀ i id, f (i.withId id) = (f i).withId id) (next : Nat) (step : Step)
    : renumber next (step.map f) = ((renumber next step).1.map f, (renumber next step).2) := by
  cases step with
  | mk i steps =>
    rw [map, renumber, renumberAll_mapAll hf (next + 1) steps]
    exact congrArg (fun j => (mk j _, _)) (hf i next).symm

theorem renumberAll_mapAll {f : Instruction → Instruction}
    (hf : ∀ i id, f (i.withId id) = (f i).withId id) (next : Nat) (steps : List Step)
    : renumberAll next (mapAll f steps)
        =
      (mapAll f (renumberAll next steps).1, (renumberAll next steps).2) := by
  cases steps with
  | nil => rfl
  | cons step steps =>
    rw [mapAll, renumberAll, renumber_map hf next step]
    dsimp only
    rw [renumberAll_mapAll hf (renumber next step).2 steps]
    rfl

end

end Step

namespace Sequence

/--
The ids of the steps, each of them before those of the steps under it.
-/
def stepIds (s : Sequence) : List Nat :=
  (Step.instructionsOfAll s.steps).map (·.id)

theorem stepIds_eq (s : Sequence)
    : s.stepIds = s.steps.flatMap fun step => step.instructions.map (·.id) := by
  rw [stepIds, Step.instructionsOfAll_eq, List.map_flatMap]

theorem contains_iff (step : Step) (id : Nat)
    : step.contains id = true ↔ id ∈ step.instructions.map (·.id) := by
  simp [Step.contains]

theorem contains_of_id {step : Step} {id : Nat} (h : (step.id == id) = true)
    : step.contains id = true := by
  rw [contains_iff, ← beq_iff_eq.mp h]
  exact List.mem_map_of_mem step.instruction_mem

/--
`id` is the id of the step at `index`, or of a step under it, and of none elsewhere in the sequence.
-/
def OwnedAt (s : Sequence) (id index : Nat) : Prop :=
  ∀ other : Nat, (∃ step, s.steps[other]? = some step ∧ step.contains id = true) ↔ other = index

theorem ownedAt_of_nodup {s : Sequence} (hnodup : s.stepIds.Nodup) {id : Nat}
    (hmem : id ∈ s.stepIds)
    : ∃ index, s.OwnedAt id index := by
  rw [stepIds_eq] at hnodup hmem
  obtain ⟨step, hstep, hid⟩ := List.mem_flatMap.mp hmem
  obtain ⟨index, hindex⟩ := List.mem_iff_getElem?.mp hstep
  refine ⟨index, fun other => ⟨?_, ?_⟩⟩
  . rintro ⟨owner, howner, hcontains⟩
    rw [contains_iff] at hcontains
    have hapart := List.pairwise_iff_getElem.mp (List.nodup_flatMap.mp hnodup).2
    obtain ⟨hlt, hget⟩ := List.getElem?_eq_some_iff.mp hindex
    obtain ⟨holt, hoget⟩ := List.getElem?_eq_some_iff.mp howner
    rcases Nat.lt_trichotomy other index with hless | heq | hmore
    . have hdisjoint := hapart other index holt hlt hless
      rw [hget, hoget] at hdisjoint
      exact absurd hid (hdisjoint hcontains)
    . exact heq
    . have hdisjoint := hapart index other hlt holt hmore
      rw [hget, hoget] at hdisjoint
      exact absurd hcontains (hdisjoint hid)
  . rintro rfl
    exact ⟨step, hindex, (contains_iff step id).mpr hid⟩

theorem ownerOf?_of_ownedAt {s : Sequence} {id index : Nat} (h : s.OwnedAt id index)
    : s.ownerOf? id = some index := by
  have honly {p : Step → Bool} (hp : ∀ step, p step = true → step.contains id = true) {other : Nat}
      (hother : s.steps.findIdx? p = some other)
      : other = index := by
    obtain ⟨hlt, hown, _⟩ := List.findIdx?_eq_some_iff_getElem.mp hother
    exact (h other).mp ⟨_, List.getElem?_eq_getElem hlt, hp _ hown⟩
  unfold ownerOf?
  cases hid : s.steps.findIdx? fun step => step.id == id with
  | some other => rw [honly (fun _ => contains_of_id) hid]; rfl
  | none =>
    cases hunder : s.steps.findIdx? fun step => step.contains id with
    | some other => rw [honly (fun _ hcontains => hcontains) hunder]; rfl
    | none =>
      obtain ⟨step, hstep, hcontains⟩ := (h index).mpr rfl
      rw [List.findIdx?_eq_none_iff] at hunder
      rw [hunder step (List.mem_of_getElem? hstep)] at hcontains
      contradiction

end Sequence

namespace Script

open Markup (Node)

theorem renumber_place (slot : Slot) (next : Nat) (step : Step)
    : Step.renumber next (place slot step)
        =
      (place slot (Step.renumber next step).1, (Step.renumber next step).2) := by
  have happend (step : Step) : Step.renumber next step.markAppend
      = ((Step.renumber next step).1.markAppend, (Step.renumber next step).2) :=
    Step.renumber_map (fun _ _ => rfl) next step
  cases step with
  | mk i substeps =>
    by_cases hposition : slot.position > 0
    . cases hslot : slot.append with
      | true => simp [place, hposition, hslot, happend, Step.renumber]
      | false => simp [place, hposition, hslot, Step.renumber]
    . cases hslot : slot.append with
      | true => simp [place, hposition, hslot, happend, Step.renumber]
      | false => simp [place, hposition, hslot, Step.renumber]

mutual

/--
The step of an element, with ids that a counter gives out while the element is read.
-/
def readStep (next : Nat) : Node → Step × Nat
  | .text content => (.mk { instructionOf (.text content) with id := next } [], next + 1)
  | .element name attributes children =>
    let (substeps, after) := readSteps (next + 1) children
    (.mk { instructionOf (.element name attributes children) with id := next } substeps, after)

def readSteps (next : Nat) : List Node → List Step × Nat
  | [] => ([], next)
  | .text _ :: nodes => readSteps next nodes
  | .element name attributes children :: nodes =>
    let (step, next) := readStep next (.element name attributes children)
    let (steps, next) := readSteps next nodes
    (step :: steps, next)

end

def readMembers (next : Nat) : List (Slot × Node) → List Step × Nat
  | [] => ([], next)
  | (slot, element) :: members =>
    let (step, next) := readStep next element
    let (steps, next) := readMembers next members
    (place slot step :: steps, next)

/--
A group has its id before its members have theirs.
-/
def readGroups (next : Nat) : List (List (Slot × Node)) → List Step × Nat
  | [] => ([], next)
  | members :: groups =>
    let (substeps, after) := readMembers (next + 1) members
    let (steps, after) := readGroups after groups
    (.mk { (group substeps).instruction with id := next } substeps :: steps, after)

def readSequence (next index : Nat) (node : Node) : Sequence × Nat :=
  let plan := (node.attribute? "grouping").bind fun pattern =>
    planGroups? pattern.toList node.childElements
  let (steps, after) := match plan with
    | none => readSteps next node.children
    | some groups => readGroups next groups
  ({ sequenceOf index node with steps }, after)

def readSequences (next index : Nat) : List Node → List Sequence × Nat
  | [] => ([], next)
  | node :: nodes =>
    let (sequence, next) := readSequence next index node
    let (sequences, next) := readSequences next (index + 1) nodes
    (sequence :: sequences, next)

mutual

theorem readStep_eq (next : Nat) (node : Node) : readStep next node = (stepOf node).renumber next := by
  cases node with
  | text content => rfl
  | element name attributes children =>
    rw [readStep, stepOf, Step.renumber, readSteps_eq (next + 1) children]

theorem readSteps_eq (next : Nat) (nodes : List Node)
    : readSteps next nodes = Step.renumberAll next (stepsOf nodes) := by
  cases nodes with
  | nil => rfl
  | cons node nodes =>
    cases node with
    | text content => rw [readSteps, stepsOf, readSteps_eq next nodes]
    | element name attributes children =>
      rw [readSteps, stepsOf, Step.renumberAll, readStep_eq next (.element name attributes children)]
      dsimp only
      rw [readSteps_eq _ nodes]

end

theorem readMembers_eq (next : Nat) (members : List (Slot × Node))
    : readMembers next members
        =
      Step.renumberAll next (members.map fun (slot, element) => place slot (stepOf element)) := by
  induction members generalizing next with
  | nil => rfl
  | cons member members ih =>
    rw [readMembers, List.map_cons, Step.renumberAll, readStep_eq, renumber_place]
    simp only [ih]

theorem renumberAll_contents (next : Nat) (steps : List Step)
    : (Step.renumberAll next steps).1.map Step.content = steps.map Step.content := by
  induction steps generalizing next with
  | nil => rfl
  | cons step steps ih =>
    rw [Step.renumberAll]
    dsimp only
    rw [List.map_cons, List.map_cons, ih]
    cases step with
    | mk => rfl

theorem renumber_group (next : Nat) (members : List Step)
    : Step.renumber next (group members)
        =
      let (substeps, after) := Step.renumberAll (next + 1) members
      (.mk { (group substeps).instruction with id := next } substeps, after) := by
  unfold group
  rw [Step.renumber]
  dsimp only [Step.instruction]
  rw [renumberAll_contents]

theorem readGroups_eq (next : Nat) (groups : List (List (Slot × Node)))
    : readGroups next groups
        =
      Step.renumberAll next (groups.map fun members =>
        group (members.map fun (slot, element) => place slot (stepOf element))) := by
  induction groups generalizing next with
  | nil => rfl
  | cons members groups ih =>
    rw [readGroups, List.map_cons, Step.renumberAll, renumber_group, readMembers_eq]
    dsimp only
    rw [ih]

theorem readSequence_eq (next index : Nat) (node : Node)
    : readSequence next index node
        =
      let (steps, after) := Step.renumberAll next (sequenceOf index node).steps
      ({ sequenceOf index node with steps }, after) := by
  have hsteps : (sequenceOf index node).steps = sequenceSteps node := rfl
  rw [hsteps]
  unfold readSequence sequenceSteps
  dsimp only
  cases (node.attribute? "grouping").bind fun pattern =>
      planGroups? pattern.toList node.childElements with
  | none => dsimp only; rw [readSteps_eq]
  | some groups => dsimp only; rw [readGroups_eq]

theorem readSequences_eq (next index : Nat) (nodes : List Node)
    : (readSequences next index nodes).1
        =
      numberSequences next (nodes.mapIdx fun i => sequenceOf (index + i)) := by
  induction nodes generalizing next index with
  | nil => rfl
  | cons node nodes ih =>
    have hshift : (fun i : Nat => sequenceOf (index + (i + 1)))
        = fun i : Nat => sequenceOf (index + 1 + i) := by
      funext i
      rw [show index + (i + 1) = index + 1 + i by omega]
    rw [readSequences, List.mapIdx_cons, numberSequences, readSequence_eq]
    dsimp only
    rw [ih, hshift]
    rfl

theorem readSequences_ids (next index : Nat) (nodes : List Node)
    : let read := readSequences next index nodes
      let ids := read.1.flatMap Sequence.stepIds
      ids = List.range' next ids.length ∧ read.2 = next + ids.length := by
  induction nodes generalizing next index with
  | nil => exact ⟨rfl, rfl⟩
  | cons node nodes ih =>
    obtain ⟨hids, hnext⟩ := Step.renumberAll_ids next (sequenceOf index node).steps
    obtain ⟨hrest, hlast⟩ := ih (readSequence next index node).2 (index + 1)
    have hread : readSequences next index (node :: nodes)
        = ((readSequence next index node).1
              :: (readSequences (readSequence next index node).2 (index + 1) nodes).1,
            (readSequences (readSequence next index node).2 (index + 1) nodes).2) := rfl
    have hfirst : (readSequence next index node).1.stepIds
          = List.range' next (readSequence next index node).1.stepIds.length
        ∧ (readSequence next index node).2
          = next + (readSequence next index node).1.stepIds.length := by
      rw [readSequence_eq]
      dsimp only
      rw [Sequence.stepIds, hids, hnext, List.length_range']
      exact ⟨rfl, rfl⟩
    dsimp only
    rw [hread]
    dsimp only
    rw [List.flatMap_cons, List.length_append, hlast, hfirst.2, ← List.range'_append_1, ← hfirst.1,
      ← hfirst.2, ← hrest]
    exact ⟨rfl, by omega⟩

theorem stepIds_resolved (s : Score) (sequence : Sequence)
    : ({ sequence with steps := Step.mapAll s.resolve sequence.steps } : Sequence).stepIds
        =
      sequence.stepIds := by
  unfold Sequence.stepIds
  dsimp only
  rw [Step.instructionsOfAll_mapAll, List.map_map]
  rfl

theorem partsOf_sequences (root : Node)
    : (partsOf root).filterMap Part.sequence?
        =
      numberSequences 0 ((root.elementsNamed "sequence").mapIdx sequenceOf) := by
  have hsequence : Part.sequence? ∘ Part.sequence = some := rfl
  have hcharacter : Part.sequence? ∘ Part.character = fun _ => none := rfl
  have hlocation : Part.sequence? ∘ Part.location = fun _ => none := rfl
  unfold partsOf
  rw [List.filterMap_append, List.filterMap_append, List.filterMap_append, List.filterMap_map,
    List.filterMap_map, List.filterMap_map, hsequence, hcharacter, hlocation]
  simp [Part.sequence?]

theorem ofNode_sequences (root : Node) (now : Instant)
    : let s := ofNode root now
      s.sequences
        = (readSequences 0 0 (root.elementsNamed "sequence")).1.map fun sequence =>
            { sequence with steps := Step.mapAll s.resolve sequence.steps } := by
  intro s
  have hread := readSequences_eq 0 0 (root.elementsNamed "sequence")
  simp only [Nat.zero_add] at hread
  let added := (partsOf root).foldl Score.add (Score.empty now)
  have hadded : added.sequences
      = numberSequences 0 ((root.elementsNamed "sequence").mapIdx sequenceOf) := by
    rw [(Score.foldl_add_items (partsOf root) (Score.empty now)).1, partsOf_sequences]
    rfl
  have hs : s = added.init := ofNode_eq root now
  rw [hread, ← hadded, hs, added.init_resolve]
  rfl

/--
The ids of the steps of a document are those that a counter gives out from zero while its elements
are read. In the order of the document they count up without a gap, so a step of a sequence is sought
and found where it is.
-/
theorem ofNode_numbered (root : Node) (now : Instant)
    : let s := ofNode root now
      let read := readSequences 0 0 (root.elementsNamed "sequence")
      s.sequences
          = read.1.map (fun sequence =>
              { sequence with steps := Step.mapAll s.resolve sequence.steps })
        ∧ s.sequences.flatMap Sequence.stepIds = List.range read.2
        ∧ ∀ sequence ∈ s.sequences, ∀ id ∈ sequence.stepIds,
            ∃ index, sequence.OwnedAt id index
              ∧ ∀ played : Sequence, played.steps = sequence.steps →
                  played.seek id
                    = .ok { played with cursor := if index = 0 then none else some (index - 1) } := by
  intro s read
  have hsequences : s.sequences = read.1.map _ := ofNode_sequences root now
  have hids : s.sequences.flatMap Sequence.stepIds = List.range read.2 := by
    obtain ⟨hrange, hlast⟩ := readSequences_ids 0 0 (root.elementsNamed "sequence")
    rw [hsequences, List.flatMap_map]
    simp only [stepIds_resolved]
    rw [hrange, hlast, Nat.zero_add, List.range_eq_range']
  refine ⟨hsequences, hids, ?_⟩
  intro sequence hmem id hid
  have hnodup : sequence.stepIds.Nodup := by
    have hall : (s.sequences.flatMap Sequence.stepIds).Nodup := by
      rw [hids]
      exact List.nodup_range
    exact (List.nodup_flatMap.mp hall).1 sequence hmem
  obtain ⟨index, howned⟩ := Sequence.ownedAt_of_nodup hnodup hid
  refine ⟨index, howned, ?_⟩
  intro played hsteps
  have howner : played.ownerOf? id = some index := by
    apply Sequence.ownerOf?_of_ownedAt
    unfold Sequence.OwnedAt
    rw [hsteps]
    exact howned
  unfold Sequence.seek
  rw [howner]
  cases index with
  | zero => rfl
  | succ => rfl

end Script

end Narrative
