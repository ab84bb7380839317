import Mathlib.Data.List.Basic
import Narrative.Script.Grouping

/-!
This module contains how a grouping pattern deals elements into groups: in order, each of them once,
and as many to a group as the pattern has slots.
-/

namespace Narrative.Script

def isPlacing (symbol : Char) : Bool :=
  ['x', 'X', '&'].contains symbol

/--
The positions of the symbols that place an element.
-/
def places (pattern : List Char) : List Nat :=
  pattern.findIdxs isPlacing

def slotAt (pattern : List Char) (position : Nat) : Slot :=
  ⟨position, pattern[position]? == some '&'⟩

theorem ofSymbol?_eq (position : Nat) (symbol : Char)
    : Slot.ofSymbol? position symbol
        =
      if isPlacing symbol then some ⟨position, symbol == '&'⟩ else none := by
  unfold Slot.ofSymbol? isPlacing
  split
  . rfl
  . rfl
  . rfl
  . next hx hX hand => simp_all

theorem slots_length_eq (passed symbols : List Char)
    : slots passed.length symbols
        =
      (symbols.findIdxs isPlacing passed.length).map (slotAt (passed ++ symbols)) := by
  induction symbols generalizing passed with
  | nil => rfl
  | cons symbol symbols ih =>
    specialize ih (passed ++ [symbol])
    rw [List.length_append, List.length_singleton, List.append_assoc, List.singleton_append] at ih
    rw [slots, ih, ofSymbol?_eq, List.findIdxs_cons]
    split
    . simp [slotAt]
    . rfl

theorem slots_eq (pattern : List Char) : slots 0 pattern = (places pattern).map (slotAt pattern) := by
  apply slots_length_eq []

theorem length_slots (pattern : List Char) : (slots 0 pattern).length = (places pattern).length := by
  rw [slots_eq, List.length_map]

theorem getElem?_slots_eq_some_iff {pattern : List Char} {i : Nat} {slot : Slot}
    : (slots 0 pattern)[i]? = some slot
        ↔
      (places pattern)[i]? = some slot.position
        ∧ (slot.append = true ↔ pattern[slot.position]? = some '&') := by
  obtain ⟨position, append⟩ := slot
  rw [slots_eq, List.getElem?_map, Option.map_eq_some_iff]
  unfold slotAt
  constructor
  . rintro ⟨place, hplace, heq⟩
    obtain ⟨rfl, rfl⟩ := Slot.mk.inj heq
    exact ⟨hplace, beq_iff_eq⟩
  . rintro ⟨hplace, happend⟩
    refine ⟨position, hplace, ?_⟩
    rw [Slot.mk.injEq, Bool.eq_iff_iff, beq_iff_eq, happend]
    exact ⟨rfl, Iff.rfl⟩

theorem slots_eq_nil_iff (pattern : List Char)
    : slots 0 pattern = [] ↔ ∀ symbol ∈ pattern, isPlacing symbol = false := by
  rw [slots_eq, List.map_eq_nil_iff]
  apply List.findIdxs_eq_nil_iff

theorem length_places_pos {pattern : List Char} (h : slots 0 pattern ≠ [])
    : 0 < (places pattern).length := by
  rw [← length_slots]
  apply List.length_pos_iff.mpr h

section

variable {pattern : List Char} (h : slots 0 pattern ≠ [])
include h

theorem planGroups_cons (element : α) (elements : List α)
    : planGroups pattern h (element :: elements)
        =
      (slots 0 pattern).zip (element :: elements)
        :: planGroups pattern h ((element :: elements).drop (places pattern).length) := by
  rw [planGroups, readGroup_eq, length_slots]

/--
The group at each place is what the slots come to on the elements from there on.
-/
theorem planGroups_eq (elements : List α)
    : planGroups pattern h elements
        =
      (List.range ((elements.length + (places pattern).length - 1) / (places pattern).length)).map
        fun g => (slots 0 pattern).zip (elements.drop (g * (places pattern).length)) := by
  have hp := length_places_pos h
  match elements with
  | [] =>
    rw [planGroups, List.length_nil, Nat.div_eq_of_lt (by omega)]
    rfl
  | element :: rest =>
    have ih := planGroups_eq ((element :: rest).drop (places pattern).length)
    rw [planGroups_cons, ih]
    generalize (places pattern).length = p at *
    have hcount : ((element :: rest).length + p - 1) / p
        = (((element :: rest).drop p).length + p - 1) / p + 1 := by
      rw [List.length_drop, List.length_cons, ← Nat.add_div_right _ hp]
      by_cases hmore : p ≤ rest.length + 1
      . congr 1
        omega
      . rw [Nat.div_eq_of_lt_le (k := 1), Nat.div_eq_of_lt_le (k := 1)]
        all_goals omega
    rw [hcount, List.range_succ_eq_map, List.map_cons, List.map_map]
    congr 1
    . simp
    . apply List.map_congr_left
      intro g _
      simp only [Function.comp_apply, List.drop_drop, Nat.succ_mul]
      rw [Nat.add_comm]
termination_by elements.length
decreasing_by
  rw [List.length_drop, List.length_cons]
  omega

theorem getElem?_planGroups (elements : List α) (g : Nat)
    : (planGroups pattern h elements)[g]?
        =
      if g * (places pattern).length < elements.length then
        some ((slots 0 pattern).zip (elements.drop (g * (places pattern).length)))
      else
        none := by
  have hp := length_places_pos h
  have hcount : g < (elements.length + (places pattern).length - 1) / (places pattern).length
      ↔ g * (places pattern).length < elements.length := by
    rw [Nat.lt_iff_add_one_le, Nat.le_div_iff_mul_le hp, Nat.succ_mul]
    omega
  rw [planGroups_eq, List.getElem?_map]
  split
  . next hg =>
    rw [List.getElem?_range (hcount.mpr hg)]
    rfl
  . next hg =>
    rw [← hcount, ← List.length_range (n := _ / _), Nat.not_lt] at hg
    rw [List.getElem?_eq_none hg]
    rfl

theorem mem_planGroups {elements : List α} {group : List (Slot × α)}
    (hmem : group ∈ planGroups pattern h elements)
    : ∃ g, g * (places pattern).length < elements.length
        ∧ group = (slots 0 pattern).zip (elements.drop (g * (places pattern).length)) := by
  obtain ⟨g, hg⟩ := List.getElem?_of_mem hmem
  rw [getElem?_planGroups] at hg
  split at hg
  . next hlt => exact ⟨g, hlt, (Option.some.inj hg).symm⟩
  . contradiction

theorem nil_not_mem_planGroups (elements : List α) : [] ∉ planGroups pattern h elements := by
  intro hmem
  obtain ⟨g, hlt, hgroup⟩ := mem_planGroups h hmem
  have hlength := congrArg List.length hgroup
  have hp := length_places_pos h
  rw [List.length_nil, List.length_zip, List.length_drop, length_slots] at hlength
  omega

theorem getElem?_getElem?_planGroups (elements : List α) (g i : Nat) (slot : Slot) (element : α)
    : ((planGroups pattern h elements)[g]?.bind fun group => group[i]?) = some (slot, element)
        ↔
      ∃ e, elements[e]? = some element ∧ g = e / (places pattern).length
        ∧ i = e % (places pattern).length ∧ (slots 0 pattern)[i]? = some slot := by
  have hp := length_places_pos h
  have hbound := length_slots pattern
  rw [getElem?_planGroups]
  generalize (places pattern).length = p at *
  constructor
  . intro hget
    split at hget
    . rw [Option.bind_some, List.getElem?_zip_eq_some, List.getElem?_drop] at hget
      obtain ⟨hslot, helement⟩ := hget
      have hi := (List.getElem?_eq_some_iff.mp hslot).1
      rw [hbound] at hi
      refine ⟨g * p + i, helement, ?_, ?_, hslot⟩
      . rw [Nat.mul_comm, Nat.mul_add_div hp, Nat.div_eq_of_lt hi, Nat.add_zero]
      . rw [Nat.mul_comm, Nat.mul_add_mod, Nat.mod_eq_of_lt hi]
    . contradiction
  . rintro ⟨e, helement, rfl, rfl, hslot⟩
    have he := (List.getElem?_eq_some_iff.mp helement).1
    rw [if_pos (Nat.lt_of_le_of_lt (Nat.div_mul_le_self e p) he), Option.bind_some,
      List.getElem?_zip_eq_some, List.getElem?_drop, Nat.div_add_mod']
    exact ⟨hslot, helement⟩

theorem flatten_planGroups (elements : List α)
    : (planGroups pattern h elements).flatten.map (·.2) = elements := by
  match elements with
  | [] =>
    rw [planGroups]
    rfl
  | element :: rest =>
    have hp := length_places_pos h
    have hgroup : ((slots 0 pattern).zip (element :: rest)).map (·.2)
        = (element :: rest).take (places pattern).length := by
      rw [List.zip_eq_zip_take_min, List.map_snd_zip]
      . simp [length_slots]
      . simp
    rw [planGroups_cons, List.flatten_cons, List.map_append, flatten_planGroups, hgroup,
      List.take_append_drop]
termination_by elements.length
decreasing_by
  rw [List.length_drop, List.length_cons]
  omega

theorem length_getElem?_planGroups {elements : List α} {g : Nat}
    (hg : g + 1 < (planGroups pattern h elements).length)
    : (planGroups pattern h elements)[g]?.map List.length = some (places pattern).length := by
  have hnext := getElem?_planGroups h elements (g + 1)
  rw [List.getElem?_eq_getElem hg, Nat.succ_mul] at hnext
  split at hnext
  . rw [getElem?_planGroups, if_pos (by omega), Option.map_some, List.length_zip,
      List.length_drop, length_slots]
    congr 1
    omega
  . contradiction

theorem pairwise_of_mem_planGroups {elements : List α} {group : List (Slot × α)}
    (hmem : group ∈ planGroups pattern h elements)
    : (group.map (·.1.position)).Pairwise (· < ·) := by
  obtain ⟨g, _, hgroup⟩ := mem_planGroups h hmem
  have hslots : (slots 0 pattern).Pairwise fun a b => a.position < b.position := by
    rw [slots_eq, List.pairwise_map]
    apply List.pairwise_findIdxs
  rw [hgroup, List.zip_eq_zip_take_min, List.pairwise_map, ← List.pairwise_map (f := Prod.fst)
    (R := fun a b : Slot => a.position < b.position), List.map_fst_zip]
  . exact hslots.sublist (List.take_sublist _ _)
  . simp

end

theorem planGroups?_eq_none_iff (pattern : List Char) (elements : List α)
    : planGroups? pattern elements = none ↔ ∀ symbol ∈ pattern, isPlacing symbol = false := by
  rw [← slots_eq_nil_iff]
  unfold planGroups?
  split
  . next h => simp [h]
  . next h => simp [h]

/--
No group comes of a pattern that places nothing. Any other pattern deals out all elements in their
order: element `e` is number `e % p` of group `e / p`, where `p` is the number of places in the
pattern.
-/
theorem planGroups?_deals (pattern : List Char) (elements : List α)
    : let p := (places pattern).length
      (planGroups? pattern elements = none ↔ ∀ symbol ∈ pattern, symbol ∉ ['x', 'X', '&'])
        ∧ ∀ groups, planGroups? pattern elements = some groups →
            groups.length = (elements.length + p - 1) / p
              ∧ [] ∉ groups
              ∧ (∀ g i slot element,
                  (groups[g]?.bind fun group => group[i]?) = some (slot, element)
                    ↔
                  ∃ e, elements[e]? = some element ∧ g = e / p ∧ i = e % p
                    ∧ (places pattern)[i]? = some slot.position
                    ∧ (slot.append = true ↔ pattern[slot.position]? = some '&'))
              ∧ groups.flatten.map (·.2) = elements
              ∧ (∀ g, g + 1 < groups.length → groups[g]?.map List.length = some p)
              ∧ ∀ group ∈ groups, (group.map (·.1.position)).Pairwise (· < ·) := by
  intro p
  constructor
  . rw [planGroups?_eq_none_iff]
    simp [isPlacing]
  . intro groups hgroups
    unfold planGroups? at hgroups
    split at hgroups
    . contradiction
    . next h =>
      rw [← Option.some.inj hgroups]
      refine ⟨?_, nil_not_mem_planGroups h elements, ?_, flatten_planGroups h elements,
        fun _ => length_getElem?_planGroups h, fun _ => pairwise_of_mem_planGroups h⟩
      . rw [planGroups_eq, List.length_map, List.length_range]
      . intro g i slot element
        rw [getElem?_getElem?_planGroups]
        simp only [getElem?_slots_eq_some_iff]
        rfl

example
    : planGroups? "-x&".toList ["a", "b", "c"]
        =
      some [[(⟨1, false⟩, "a"), (⟨2, true⟩, "b")], [(⟨1, false⟩, "c")]] := by
  decide +kernel

end Narrative.Script
