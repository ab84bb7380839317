import Mathlib.Data.List.Forall2
import Narrative.Proofs.Grouping
import Narrative.Proofs.Numbering

/-!
This module contains what a grouping pattern makes of the steps of a sequence. The members of the
groups are the steps that there would be without the pattern, but for how the pattern places them.
-/

namespace Narrative

theorem getElem?_of_forall₂ {R : α → β → Prop} {items : List α} {others : List β}
    (h : List.Forall₂ R items others) {index : Nat} {item : α} (hitem : items[index]? = some item)
    : ∃ other, others[index]? = some other ∧ R item other := by
  induction h generalizing index with
  | nil => contradiction
  | cons hfirst hrest ih =>
    cases index with
    | zero =>
      rw [← Option.some.inj hitem]
      exact ⟨_, rfl, hfirst⟩
    | succ index => exact ih hitem

/--
`j` differs from `i` in its id, has the delay that is given, and appends if it is marked.
-/
def Instruction.Restated (i : Instruction) (delay : Float) (marked : Bool) (j : Instruction) : Prop :=
  j = { i with id := j.id, delay, append := i.append || marked }

def Instruction.mark (marked : Bool) (i : Instruction) : Instruction :=
  { i with append := i.append || marked }

namespace Step

/--
`member` is what `step` comes to at a position in a group. The steps under it keep their delays.
-/
inductive StandsAt (position : Nat) (marked : Bool) : (step : Step) → (member : Step) → Prop where
  | mk {i j : Instruction} {steps others : List Step} :
    i.Restated (if position > 0 then Float.ofNat position else i.delay) marked j →
      List.Forall₂ (Pairs fun i j => i.Restated i.delay marked j) steps others →
      StandsAt position marked (.mk i steps) (.mk j others)

mutual

theorem map_eq_self {f : Instruction → Instruction} (hf : ∀ i, f i = i) (step : Step)
    : step.map f = step := by
  cases step with
  | mk i steps => rw [map, hf, mapAll_eq_self hf steps]

theorem mapAll_eq_self {f : Instruction → Instruction} (hf : ∀ i, f i = i) (steps : List Step)
    : mapAll f steps = steps := by
  cases steps with
  | nil => rfl
  | cons step steps => rw [mapAll, map_eq_self hf step, mapAll_eq_self hf steps]

end

mutual

theorem pairs_renumber (marked : Bool) (next other : Nat) (step : Step)
    : Pairs (fun i j => i.Restated i.delay marked j) (renumber next step).1
        ((renumber other step).1.map (Instruction.mark marked)) := by
  cases step with
  | mk i steps => exact .mk rfl (forall₂_renumberAll marked (next + 1) (other + 1) steps)

theorem forall₂_renumberAll (marked : Bool) (next other : Nat) (steps : List Step)
    : List.Forall₂ (Pairs fun i j => i.Restated i.delay marked j) (renumberAll next steps).1
        (mapAll (Instruction.mark marked) (renumberAll other steps).1) := by
  cases steps with
  | nil => exact .nil
  | cons step steps => exact .cons (pairs_renumber marked _ _ step) (forall₂_renumberAll marked _ _ steps)

end

def idsOf (steps : List Step) : List Nat :=
  (instructionsOfAll steps).map (·.id)

theorem idsOf_renumberAll (next : Nat) (steps : List Step)
    : idsOf (renumberAll next steps).1 = List.range' next (idsOf (renumberAll next steps).1).length := by
  unfold idsOf
  rw [(renumberAll_ids next steps).1, List.length_range']

def Numbers (step numbered : Step) : Prop :=
  ∃ next, numbered = (renumber next step).1

theorem numbers_renumberAll (next : Nat) (steps : List Step)
    : List.Forall₂ Numbers steps (renumberAll next steps).1 := by
  induction steps generalizing next with
  | nil => exact .nil
  | cons step steps ih => exact .cons ⟨next, rfl⟩ (ih _)

theorem Numbers.substeps {step numbered : Step} (h : step.Numbers numbered)
    : List.Forall₂ Numbers step.substeps numbered.substeps := by
  obtain ⟨next, hnumbered⟩ := h
  rw [hnumbered]
  cases step with
  | mk i steps => exact numbers_renumberAll (next + 1) steps

theorem forall_mem_renumberAll {P : Step → Prop} {steps : List Step}
    (h : ∀ step ∈ steps, ∀ numbered, step.Numbers numbered → P numbered) (next : Nat)
    : ∀ numbered ∈ (renumberAll next steps).1, P numbered := by
  induction steps generalizing next with
  | nil => exact fun _ hmem => nomatch hmem
  | cons step steps ih =>
    rw [List.forall_mem_cons] at h
    rw [renumberAll]
    dsimp only
    rw [List.forall_mem_cons]
    exact ⟨h.1 _ ⟨next, rfl⟩, ih h.2 _⟩

end Step

namespace Script

open Markup (Node)

theorem stepsOf_eq (nodes : List Node) : stepsOf nodes = (nodes.filter Node.isElement).map stepOf := by
  induction nodes with
  | nil => rfl
  | cons node nodes ih =>
    cases node with
    | text content => exact ih
    | element name attributes children => exact congrArg (stepOf _ :: ·) ih

theorem place_eq (slot : Slot) (i : Instruction) (steps : List Step)
    : place slot (.mk i steps)
        =
      .mk
        { i with
          delay := if slot.position > 0 then Float.ofNat slot.position else i.delay
          append := i.append || slot.append }
        (Step.mapAll (Instruction.mark slot.append) steps) := by
  have hplaced : place slot (.mk i steps)
      = let placed : Step := .mk
          { i with delay := if slot.position > 0 then Float.ofNat slot.position else i.delay } steps
        if slot.append then placed.markAppend else placed := by
    unfold place
    by_cases hposition : slot.position > 0
    . simp [hposition]
    . simp [hposition]
  rw [hplaced]
  cases slot.append with
  | true =>
    have hmark : Instruction.mark true = fun i => { i with append := true } := by
      funext i
      simp [Instruction.mark]
    rw [hmark, Bool.or_true]
    rfl
  | false =>
    have hmark (i : Instruction) : Instruction.mark false i = i := by simp [Instruction.mark]
    rw [Step.mapAll_eq_self hmark, Bool.or_false]
    rfl

theorem standsAt_place (slot : Slot) {step numbered member : Step} (hstep : step.Numbers numbered)
    (hmember : (place slot step).Numbers member)
    : Step.StandsAt slot.position slot.append numbered member := by
  obtain ⟨next, hnumbered⟩ := hstep
  obtain ⟨other, hmember⟩ := hmember
  rw [hnumbered, hmember, renumber_place]
  cases step with
  | mk i steps =>
    rw [Step.renumber, Step.renumber]
    dsimp only
    rw [place_eq]
    exact .mk rfl (Step.forall₂_renumberAll slot.append (next + 1) (other + 1) steps)

theorem getElem?_flatten_planGroups {pattern : List Char} (h : slots 0 pattern ≠ [])
    {elements : List α} {e : Nat} {element : α} (he : elements[e]? = some element)
    : ∃ slot, (slots 0 pattern)[e % (places pattern).length]? = some slot
        ∧ (planGroups pattern h elements).flatten[e]? = some (slot, element) := by
  have hp := length_places_pos h
  have hlength := length_slots pattern
  obtain ⟨hlt, _⟩ := List.getElem?_eq_some_iff.mp he
  match elements with
  | [] => contradiction
  | first :: rest =>
    rw [planGroups_cons, List.flatten_cons]
    by_cases hfirst : e < (places pattern).length
    . have hslot : e < (slots 0 pattern).length := by omega
      rw [Nat.mod_eq_of_lt hfirst]
      refine ⟨(slots 0 pattern)[e], List.getElem?_eq_getElem hslot, ?_⟩
      rw [List.getElem?_append_left]
      . rw [List.getElem?_zip_eq_some]
        exact ⟨List.getElem?_eq_getElem hslot, he⟩
      . rw [List.length_zip]
        omega
    . have hzip : ((slots 0 pattern).zip (first :: rest)).length = (places pattern).length := by
        rw [List.length_zip]
        omega
      have hlater : ((first :: rest).drop (places pattern).length)[e - (places pattern).length]?
          = some element := by
        rw [List.getElem?_drop, Nat.add_sub_cancel' (Nat.le_of_not_lt hfirst)]
        exact he
      obtain ⟨slot, hslot, hflatten⟩ := getElem?_flatten_planGroups h hlater
      refine ⟨slot, ?_, ?_⟩
      . rw [Nat.mod_eq_sub_mod (Nat.le_of_not_lt hfirst)]
        exact hslot
      . rw [List.getElem?_append_right (by omega), hzip]
        exact hflatten
termination_by elements.length
decreasing_by
  rw [List.length_drop, List.length_cons]
  omega

def memberOf (placed : Slot × Node) : Step :=
  place placed.1 (stepOf placed.2)

theorem sequenceSteps_of_slots {node : Node} {pattern : String}
    (hpattern : node.attribute? "grouping" = some pattern) (h : slots 0 pattern.toList ≠ [])
    : sequenceSteps node
        =
      (planGroups pattern.toList h node.childElements).map fun placed =>
        group (placed.map memberOf) := by
  unfold sequenceSteps
  rw [hpattern, Option.bind_some, planGroups?, dif_neg h]
  rfl

theorem sequenceSteps_of_no_grouping {node : Node} (h : node.attribute? "grouping" = none)
    : sequenceSteps node = node.childElements.map stepOf := by
  unfold sequenceSteps
  rw [h]
  apply stepsOf_eq

/--
A grouping pattern only regroups. The members of the groups are, one for one and in their order, the
steps that there are without the pattern, each as it stands at the next place of the pattern, which
is used over and over. The groups themselves come at once and show what their members show.
-/
theorem sequenceOf_regroups (next other index : Nat) (grouped plain : Node) (pattern : String)
    (hchildren : grouped.children = plain.children)
    (hgrouped : grouped.attribute? "grouping" = some pattern)
    (hplain : plain.attribute? "grouping" = none)
    (hplaces : ∃ symbol ∈ pattern.toList, symbol ∈ ['x', 'X', '&'])
    : let p := places pattern.toList
      let groups := (Step.renumberAll next (sequenceOf index grouped).steps).1
      let steps := (Step.renumberAll other (sequenceOf index plain).steps).1
      let members := groups.flatMap Step.substeps
      (∀ group ∈ groups,
          group.instruction
            = { id := group.id
                command := .group
                content := String.join (group.substeps.map Step.content)
                delay := 0.0
                append := false })
        ∧ members.length = steps.length
        ∧ (∀ e step, steps[e]? = some step →
            ∃ position member,
              p[e % p.length]? = some position
                ∧ members[e]? = some member
                ∧ Step.StandsAt position (pattern.toList[position]? == some '&') step member)
        ∧ Step.idsOf groups = List.range' next (Step.idsOf groups).length
        ∧ Step.idsOf steps = List.range' other (Step.idsOf steps).length := by
  intro p groups steps members
  have hslots : slots 0 pattern.toList ≠ [] := by
    obtain ⟨symbol, hmem, hplacing⟩ := hplaces
    rw [Ne, slots_eq_nil_iff]
    intro hnone
    have hplacing : isPlacing symbol = true := List.contains_iff_mem.mpr hplacing
    rw [hnone symbol hmem] at hplacing
    contradiction
  let plan := planGroups pattern.toList hslots grouped.childElements
  have hgroups : (sequenceOf index grouped).steps
      = plan.map fun placed => group (placed.map memberOf) :=
    sequenceSteps_of_slots hgrouped hslots
  have hsteps : (sequenceOf index plain).steps = plain.childElements.map stepOf :=
    sequenceSteps_of_no_grouping hplain
  have helements : plain.childElements = grouped.childElements :=
    congrArg (List.filter Node.isElement) hchildren.symm
  have hmembers : List.Forall₂ Step.Numbers (plan.flatten.map memberOf) members := by
    have hflat : (sequenceOf index grouped).steps.flatMap Step.substeps
        = plan.flatten.map memberOf := by
      rw [hgroups, List.flatMap_map, List.map_flatten]
      rfl
    rw [← hflat]
    exact List.rel_flatMap (Step.numbers_renumberAll next _) fun _ _ => Step.Numbers.substeps
  have hnumbered : List.Forall₂ Step.Numbers (grouped.childElements.map stepOf) steps := by
    rw [← helements, ← hsteps]
    apply Step.numbers_renumberAll
  refine ⟨?_, ?_, ?_, Step.idsOf_renumberAll next _, Step.idsOf_renumberAll other _⟩
  . apply Step.forall_mem_renumberAll
    rw [hgroups, List.forall_mem_map]
    rintro placed _ numbered ⟨next, hnumbered⟩
    rw [hnumbered, renumber_group]
    rfl
  . have hall : plan.flatten.length = grouped.childElements.length := by
      rw [← flatten_planGroups hslots grouped.childElements, List.length_map]
    rw [← hmembers.length_eq, ← hnumbered.length_eq, List.length_map, List.length_map, hall]
  . intro e step hstep
    obtain ⟨read, hread, hnumbers⟩ := getElem?_of_forall₂ hnumbered.flip hstep
    rw [List.getElem?_map, Option.map_eq_some_iff] at hread
    obtain ⟨element, helement, hread⟩ := hread
    obtain ⟨slot, hslot, hplanned⟩ := getElem?_flatten_planGroups hslots helement
    have hplaced : (plan.flatten.map memberOf)[e]? = some (place slot read) := by
      rw [List.getElem?_map, hplanned, ← hread]
      rfl
    obtain ⟨member, hmember, hplacing⟩ := getElem?_of_forall₂ hmembers hplaced
    obtain ⟨hposition, hmarked⟩ := getElem?_slots_eq_some_iff.mp hslot
    refine ⟨slot.position, member, hposition, hmember, ?_⟩
    have hmarked : (pattern.toList[slot.position]? == some '&') = slot.append := by
      rw [Bool.eq_iff_iff, beq_iff_eq, hmarked]
    rw [hmarked]
    exact standsAt_place slot hnumbers hplacing

/--
The pattern is used twice, and the second member has a step under it.
-/
theorem sequenceOf_regroups_twice
    : let inner : Node := .element "narrate" [] [.text "inner"]
      let two : Node := .element "narrate" [⟨"delay", "3"⟩] [.text "two", inner]
      let children : List Node := [.element "narrate" [] [.text "one"], two, .text " ", inner]
      let grouped : Node := .element "sequence" [⟨"grouping", "x-&"⟩] children
      let plain : Node := .element "sequence" [] children
      let groups := (Step.renumberAll 0 (sequenceOf 0 grouped).steps).1
      let steps := (Step.renumberAll 0 (sequenceOf 0 plain).steps).1
      let members := groups.flatMap Step.substeps
      grouped.attribute? "grouping" = some "x-&"
        ∧ groups.length = 2
        ∧ members.length = 3
        ∧ ∃ step member, steps[1]? = some step ∧ members[1]? = some member
            ∧ Step.StandsAt 2 true step member := by
  intro inner two children grouped plain groups steps members
  have hgrouped : grouped.attribute? "grouping" = some "x-&" := by decide +kernel
  obtain ⟨_, hlength, hmembers, _⟩ :=
    sequenceOf_regroups 0 0 0 grouped plain "x-&" rfl hgrouped rfl ⟨'x', by decide +kernel⟩
  obtain ⟨position, member, hposition, hmember, hstands⟩ := hmembers 1 _ rfl
  have hsecond : position = 2 := by
    have : (places "x-&".toList)[1 % (places "x-&".toList).length]? = some 2 := by decide +kernel
    exact Option.some.inj (hposition.symm.trans this)
  rw [hsecond] at hstands
  exact ⟨hgrouped, by decide +kernel, hlength, _, member, rfl, hmember, hstands⟩

end Script

end Narrative
