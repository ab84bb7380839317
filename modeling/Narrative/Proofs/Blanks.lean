import Narrative.Text.Blank

/-!
This module contains what the removal of white space leaves of a text.
-/

namespace Narrative.Text

def Blank (cs : List Char) : Prop :=
  ∀ c ∈ cs, isBlank c = true

theorem isBlank_of_visible {c : Char} (hfirst : 33 ≤ c.toNat) (hlast : c.toNat ≤ 126)
    : isBlank c = false := by
  unfold isBlank
  simp only [Bool.or_eq_false_iff, Bool.and_eq_false_iff, decide_eq_false_iff_not,
    beq_eq_false_iff_ne]
  omega

theorem trimStart_append {before : List Char} (h : Blank before) (cs : List Char)
    : trimStart (before ++ cs) = trimStart cs := by
  apply List.dropWhile_append_of_pos h

theorem trimStart_of_head {cs : List Char} (h : ∀ c, cs.head? = some c → isBlank c = false)
    : trimStart cs = cs := by
  cases cs with
  | nil => rfl
  | cons c cs => simp [trimStart, h c rfl]

theorem trimStart_eq_nil {cs : List Char} (h : Blank cs) : trimStart cs = [] := by
  have hstart := trimStart_append h []
  rw [List.append_nil] at hstart
  exact hstart

theorem trimStart_concat {after : List Char} (h : Blank after) (cs : List Char)
    : trimStart (cs ++ after) = if trimStart cs = [] then [] else trimStart cs ++ after := by
  have hnone := trimStart_eq_nil h
  unfold trimStart at hnone ⊢
  rw [List.dropWhile_append, hnone]
  simp only [List.isEmpty_iff]

theorem Blank.reverse {cs : List Char} (h : Blank cs) : Blank cs.reverse := by
  intro c hc
  exact h c (List.mem_reverse.mp hc)

theorem exists_append_trimStart (cs : List Char)
    : ∃ before, Blank before ∧ cs = before ++ trimStart cs := by
  refine ⟨cs.takeWhile isBlank, ?_, ?_⟩
  . apply List.all_eq_true.mp List.all_takeWhile
  . simp [trimStart]

theorem trim_append {after : List Char} (h : Blank after) (cs : List Char)
    : trim (cs ++ after) = trim cs := by
  unfold trim
  rw [trimStart_concat h]
  split
  . next hnone => rw [hnone]
  . rw [List.reverse_append, trimStart_append h.reverse]

theorem trim_append_append {before after : List Char} (hbefore : Blank before)
    (hafter : Blank after) (cs : List Char)
    : trim (before ++ cs ++ after) = trim cs := by
  rw [trim_append hafter, trim, trimStart_append hbefore]
  rfl

theorem trim_trim (cs : List Char) : trim (trim cs) = trim cs := by
  obtain ⟨before, hbefore, hcs⟩ := exists_append_trimStart cs
  obtain ⟨after, hafter, hrest⟩ := exists_append_trimStart (trimStart cs).reverse
  have hwhole : cs = before ++ trim cs ++ after.reverse := by
    rw [List.append_assoc, trim, ← List.reverse_append, ← hrest, List.reverse_reverse]
    exact hcs
  conv => rhs; rw [hwhole]
  rw [trim_append_append hbefore hafter.reverse]

end Narrative.Text
