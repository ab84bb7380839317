import Mathlib.Data.List.Forall2
import Narrative.Proofs.Frame
import Narrative.Proofs.Steps

/-!
This module contains what the references of a score come to. Each instruction, however deep in its
step, acts on the last item that has the id it refers to, and nothing else of it changes.
-/

namespace Narrative

def Part.sequence? : Part → Option Sequence
  | Part.sequence added => some added
  | _ => none

def Part.character? : Part → Option Character
  | Part.character added => some added
  | _ => none

def Part.location? : Part → Option Location
  | Part.location added => some added
  | _ => none

/--
A reference by `id` is a hit at the last place where the id stands, and a miss if it stands nowhere.
-/
inductive Refers (ids : List String) (id : String) (hit : Nat → α) (miss : α) : α → Prop where
  | last {index : Nat} :
    ids[index]? = some id → (∀ later : Nat, ids[later]? = some id → later ≤ index) →
      Refers ids id hit miss (hit index)
  | absent : id ∉ ids → Refers ids id hit miss miss

theorem lastIndex?_cases (name : α → String) (items : List α) (id : String)
    : (lastIndex? (fun item => name item == id) items = none ∧ id ∉ items.map name)
        ∨ ∃ index, lastIndex? (fun item => name item == id) items = some index
            ∧ (items.map name)[index]? = some id
            ∧ ∀ later : Nat, (items.map name)[later]? = some id → later ≤ index := by
  induction items with
  | nil => exact Or.inl ⟨rfl, List.not_mem_nil⟩
  | cons head items ih =>
    unfold lastIndex?
    rcases ih with ⟨hnone, habsent⟩ | ⟨index, hsome, hget, hlast⟩
    . rw [hnone]
      by_cases hhead : name head = id
      . right
        refine ⟨0, by simp [hhead], by simp [hhead], ?_⟩
        intro later hlater
        cases later with
        | zero => apply Nat.zero_le
        | succ later =>
          have hmem : id ∈ items.map name := List.mem_of_getElem? hlater
          contradiction
      . left
        refine ⟨by simp [hhead], ?_⟩
        rw [List.map_cons, List.mem_cons, not_or]
        exact ⟨fun heq => hhead heq.symm, habsent⟩
    . right
      rw [hsome]
      refine ⟨index + 1, rfl, hget, ?_⟩
      intro later hlater
      cases later with
      | zero => apply Nat.zero_le
      | succ later => exact Nat.succ_le_succ (hlast later hlater)

namespace Refers

variable {name : β → String} {items : List β} {id : String} {hit : Nat → α} {miss : α}

theorem of_eq_some {index : Nat}
    (h : lastIndex? (fun item => name item == id) items = some index)
    : Refers (items.map name) id hit miss (hit index) := by
  obtain ⟨hnone, _⟩ | ⟨_, hsome, hget, hlast⟩ := lastIndex?_cases name items id
  . simp [hnone] at h
  . rw [hsome] at h
    rw [← Option.some.inj h]
    exact .last hget hlast

theorem of_eq_none (h : lastIndex? (fun item => name item == id) items = none)
    : Refers (items.map name) id hit miss miss := by
  obtain ⟨_, habsent⟩ | ⟨_, hsome, _⟩ := lastIndex?_cases name items id
  . exact .absent habsent
  . simp [hsome] at h

end Refers

namespace Step

/--
Two trees of one shape, with instructions at the same place related by `R`.
-/
inductive Pairs (R : Instruction → Instruction → Prop) : Step → Step → Prop where
  | mk {i j : Instruction} {steps others : List Step} :
    R i j → List.Forall₂ (Pairs R) steps others → Pairs R (.mk i steps) (.mk j others)

mutual

theorem pairs_map {R : Instruction → Instruction → Prop} {f : Instruction → Instruction}
    (hf : ∀ i, R i (f i)) (step : Step)
    : Pairs R step (step.map f) := by
  cases step with
  | mk i steps => exact .mk (hf i) (forall₂_mapAll hf steps)

theorem forall₂_mapAll {R : Instruction → Instruction → Prop} {f : Instruction → Instruction}
    (hf : ∀ i, R i (f i)) (steps : List Step)
    : List.Forall₂ (Pairs R) steps (mapAll f steps) := by
  cases steps with
  | nil => exact .nil
  | cons step steps => exact .cons (pairs_map hf step) (forall₂_mapAll hf steps)

end

mutual

theorem map_map_of_idem {f : Instruction → Instruction} (hf : ∀ i, f (f i) = f i) (step : Step)
    : (step.map f).map f = step.map f := by
  cases step with
  | mk i steps => rw [map, map, hf, mapAll_mapAll_of_idem hf steps]

theorem mapAll_mapAll_of_idem {f : Instruction → Instruction} (hf : ∀ i, f (f i) = f i)
    (steps : List Step)
    : mapAll f (mapAll f steps) = mapAll f steps := by
  cases steps with
  | nil => rfl
  | cons step steps => rw [mapAll, mapAll, map_map_of_idem hf step, mapAll_mapAll_of_idem hf steps]

end

end Step

namespace Score

def NamesCharacter (s : Score) (id : String) : Target → Prop :=
  Refers (s.characters.map (·.id)) id (.character · id) .unresolved

def NamesLocation (s : Score) (id : String) : Target → Prop :=
  Refers (s.locations.map (·.id)) id (.location · id) .unresolved

def NamesSequence (s : Score) (id : String) : Target → Prop :=
  Refers (s.sequences.map (·.id)) id (.sequence · id) .unresolved

/--
What an instruction acts on: a place or a sequence by what it contains, and a character by its
reference. Without a reference, what is said by someone is lost, and anything else has no character.
-/
def ActsOn (s : Score) (i : Instruction) (target : Target) : Prop :=
  match i.command, i.characterRef with
  | .narrate, _ => target = .placeholder true
  | .setLocation, _ => s.NamesLocation (Text.trimmed i.content) target
  | .setSequence .., _ | .sample, _ | .reset, _ => s.NamesSequence (Text.trimmed i.content) target
  | _, some id => s.NamesCharacter id target
  | .speak _, none | .think, none | .sing _, none | .choice, none => target = .unresolved
  | _, none => target = .placeholder false

/--
Where an instruction leads. Only a choice leads anywhere, and what any other has stays.
-/
def LeadsTo (s : Score) (i : Instruction) (destination : Option Destination) : Prop :=
  match i.command, i.kind, i.destinationRef with
  | .choice, some "sequence", some id =>
    Refers (s.sequences.map (·.id)) id (fun index => some (.sequence index id)) none destination
  | .choice, some "url", some address => destination = some (.url address)
  | .choice, _, _ => destination = none
  | _, _, _ => destination = i.destination

structure Resolves (s : Score) (i resolved : Instruction) : Prop where
  target : s.ActsOn i resolved.target
  destination : s.LeadsTo i resolved.destination
  rest : resolved = { i with target := resolved.target, destination := resolved.destination }

variable (s : Score)

theorem names_characterTarget (id : String) : s.NamesCharacter id (s.characterTarget (some id)) := by
  unfold characterTarget
  dsimp only
  split
  . next hfound => exact .of_eq_some hfound
  . next hnone => exact .of_eq_none hnone

theorem names_locationTarget (id : String) : s.NamesLocation id (s.locationTarget id) := by
  unfold locationTarget
  split
  . next hfound => exact .of_eq_some hfound
  . next hnone => exact .of_eq_none hnone

theorem names_sequenceTarget (id : String) : s.NamesSequence id (s.sequenceTarget id) := by
  unfold sequenceTarget
  split
  . next hfound => exact .of_eq_some hfound
  . next hnone => exact .of_eq_none hnone

theorem actsOn_targetOf (i : Instruction) : s.ActsOn i (s.targetOf i) := by
  unfold ActsOn targetOf
  cases i.command with
  | narrate => rfl
  | setLocation => apply names_locationTarget
  | setSequence => apply names_sequenceTarget
  | sample => apply names_sequenceTarget
  | reset => apply names_sequenceTarget
  | _ =>
    cases i.characterRef with
    | none => rfl
    | some id => apply names_characterTarget

theorem leadsTo_destinationOf (i : Instruction) : s.LeadsTo i (s.destinationOf i) := by
  unfold LeadsTo destinationOf
  cases i.command with
  | choice =>
    dsimp only
    generalize i.kind = kind
    generalize i.destinationRef = reference
    split
    . next id _ =>
      simp only
      cases hfound : s.sequenceNamed? id with
      | some index => exact .of_eq_some hfound
      | none => exact .of_eq_none hfound
    . rfl
    . next hsequence hurl =>
      split
      . simp_all
      . simp_all
      . rfl
    . contradiction
  | _ => rfl

theorem resolves_resolve (i : Instruction) : s.Resolves i (s.resolve i) where
  target := s.actsOn_targetOf i
  destination := s.leadsTo_destinationOf i
  rest := rfl

theorem destinationOf_resolve (i : Instruction)
    : s.destinationOf (s.resolve i) = s.destinationOf i := by
  unfold destinationOf resolve
  cases hcommand : i.command with
  | choice => rfl
  | _ => rw [destinationOf, hcommand]

theorem resolve_resolve (i : Instruction) : s.resolve (s.resolve i) = s.resolve i := by
  have hdestination := s.destinationOf_resolve i
  unfold resolve at hdestination ⊢
  rw [hdestination]
  rfl

theorem lastIndex?_map (p : β → Bool) (f : α → β) (items : List α)
    : lastIndex? p (items.map f) = lastIndex? (fun item => p (f item)) items := by
  induction items with
  | nil => rfl
  | cons item items ih => rw [List.map_cons, lastIndex?, lastIndex?, ih]

theorem init_resolve : s.init.resolve = s.resolve := by
  have hnamed (id : String) : s.init.sequenceNamed? id = s.sequenceNamed? id := by
    apply lastIndex?_map
  funext i
  unfold resolve targetOf destinationOf sequenceTarget
  simp only [hnamed]
  rfl

theorem init_init : s.init.init = s.init := by
  have hidem (sequence : Sequence)
      : { sequence with
          steps := Step.mapAll s.resolve (Step.mapAll s.resolve sequence.steps) }
        = { sequence with steps := Step.mapAll s.resolve sequence.steps } := by
    rw [Step.mapAll_mapAll_of_idem s.resolve_resolve]
  rw [init, init_resolve]
  unfold init
  dsimp only
  rw [List.map_map]
  exact congrArg (fun f => { s with sequences := s.sequences.map f }) (funext hidem)

theorem foldl_add_items (parts : List Part) (s : Score)
    : let added := parts.foldl add s
      added.sequences = s.sequences ++ parts.filterMap Part.sequence?
        ∧ added.characters = s.characters ++ parts.filterMap Part.character?
        ∧ added.locations = s.locations ++ parts.filterMap Part.location? := by
  induction parts generalizing s with
  | nil => simp
  | cons part parts ih =>
    obtain ⟨hsequences, hcharacters, hlocations⟩ := ih (s.add part)
    dsimp only
    rw [List.foldl_cons, hsequences, hcharacters, hlocations]
    cases part with
    | setting setting =>
      obtain ⟨_, _, _, _, hset⟩ := s.set_eq setting
      unfold add
      dsimp only
      rw [hset]
      exact ⟨rfl, rfl, rfl⟩
    | sequence => exact ⟨List.append_assoc _ _ _, rfl, rfl⟩
    | character => exact ⟨rfl, List.append_assoc _ _ _, rfl⟩
    | location => exact ⟨rfl, rfl, List.append_assoc _ _ _⟩

/--
However a score is assembled, each of its instructions is one of those that were added, at its place in
its step, and acts on the last item of the id that it refers to. Nothing else is changed, and resolving
the references again changes nothing at all.
-/
theorem assembled_resolves (now : Instant) (parts : List Part)
    : let added := parts.foldl add (empty now)
      let s := assembled now parts
      s = { added with sequences := s.sequences }
        ∧ s.characters = parts.filterMap Part.character?
        ∧ s.locations = parts.filterMap Part.location?
        ∧ List.Forall₂
            (fun sequence resolved => ∃ steps,
              resolved = { sequence with steps }
                ∧ List.Forall₂ (Step.Pairs s.Resolves) sequence.steps steps)
            (parts.filterMap Part.sequence?) s.sequences
        ∧ s.init = s := by
  intro added s
  obtain ⟨hsequences, hcharacters, hlocations⟩ := foldl_add_items parts (empty now)
  refine ⟨rfl, hcharacters, hlocations, ?_, added.init_init⟩
  have hadded : added.sequences = parts.filterMap Part.sequence? := hsequences
  rw [← hadded]
  change List.Forall₂ _ added.sequences (added.sequences.map _)
  rw [List.forall₂_map_right_iff, List.forall₂_same]
  intro sequence _
  refine ⟨_, rfl, ?_⟩
  rw [← added.init_resolve]
  exact Step.forall₂_mapAll added.init.resolves_resolve sequence.steps

end Score

end Narrative
