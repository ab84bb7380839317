import Mathlib.Data.List.Infix
import Narrative.Script.Lines

/-!
This module contains how a text is divided at a delimiter, and which lines a script is read from.
All lines are there if the delimiter cannot overlap itself.
-/

namespace Narrative

namespace Text

/--
`parts` is what lies around the occurrences of `delimiter` in a text. They are looked for from the
left, each of them behind the one before.
-/
inductive Splits (delimiter : List Char) :
    (text : List Char) → (parts : List (List Char)) → Prop where
  | last {text : List Char} : ¬delimiter <:+: text → Splits delimiter text [text]
  | next {part rest : List Char} {parts : List (List Char)} :
    ¬delimiter <:+: part ++ delimiter.dropLast → Splits delimiter rest parts →
      Splits delimiter (part ++ (delimiter ++ rest)) (part :: parts)

variable {delimiter text : List Char} {parts : List (List Char)}

theorem segments.go_skip (skip : Nat) (read text : List Char)
    : segments.go delimiter skip read text = segments.go delimiter 0 read (text.drop skip) := by
  induction text generalizing skip with
  | nil => simp [segments.go]
  | cons c text ih =>
    cases skip with
    | zero => rfl
    | succ skip => simp [segments.go, ih]

theorem segments.go_of_absent (h : ¬delimiter <:+: text) (read : List Char)
    : segments.go delimiter 0 read text = [read.reverse ++ text] := by
  induction text generalizing read with
  | nil => simp [segments.go]
  | cons c text ih =>
    have hhere : ¬delimiter.isPrefixOf (c :: text) = true := by
      rw [List.isPrefixOf_iff_prefix]
      exact fun hbegins => h hbegins.isInfix
    have hlater : ¬delimiter <:+: text := by
      intro hoccurs
      exact h (hoccurs.trans (List.suffix_cons c text).isInfix)
    rw [segments.go, if_neg hhere, ih hlater]
    simp

theorem segments.go_append (hne : delimiter ≠ []) {part : List Char}
    (h : ¬delimiter <:+: part ++ delimiter.dropLast) (read rest : List Char)
    : segments.go delimiter 0 read (part ++ (delimiter ++ rest))
        =
      (read.reverse ++ part) :: segments.go delimiter 0 [] rest := by
  induction part generalizing read with
  | nil =>
    obtain ⟨d, ds, hdelimiter⟩ := List.exists_cons_of_ne_nil hne
    have hhere : delimiter.isPrefixOf (d :: (ds ++ rest)) = true := by
      rw [List.isPrefixOf_iff_prefix, hdelimiter]
      apply List.prefix_append
    have htext : delimiter ++ rest = d :: (ds ++ rest) := by rw [hdelimiter, List.cons_append]
    rw [List.nil_append, htext, segments.go, if_pos hhere, segments.go_skip, hdelimiter]
    simp
  | cons c part ih =>
    have hhere : ¬delimiter.isPrefixOf (c :: (part ++ (delimiter ++ rest))) = true := by
      rw [List.isPrefixOf_iff_prefix]
      intro hbegins
      apply h
      -- an occurrence that begins here ends before the one that is looked for
      have hshort : c :: part ++ delimiter.dropLast <+: c :: (part ++ (delimiter ++ rest)) := by
        rw [List.cons_append, List.prefix_cons_inj, List.prefix_append_right_inj]
        exact (List.dropLast_prefix _).trans (List.prefix_append _ _)
      apply List.IsPrefix.isInfix
      apply List.prefix_of_prefix_length_le hbegins hshort
      rw [List.length_append, List.length_cons, List.length_dropLast]
      omega
    have hlater : ¬delimiter <:+: part ++ delimiter.dropLast := by
      intro hoccurs
      exact h (hoccurs.trans (List.suffix_cons c _).isInfix)
    rw [List.cons_append, segments.go, if_neg hhere, ih hlater]
    simp

theorem exists_first (hne : delimiter ≠ []) (before after : List Char)
    : ∃ part rest, before ++ (delimiter ++ after) = part ++ (delimiter ++ rest)
        ∧ ¬delimiter <:+: part ++ delimiter.dropLast := by
  by_cases h : delimiter <:+: before ++ delimiter.dropLast
  . obtain ⟨earlier, between, heq⟩ := h
    have hlast := List.dropLast_append_getLast hne
    have hless : earlier.length < before.length := by
      have hlength := congrArg List.length heq
      have hpos := List.length_pos_iff.mpr hne
      simp only [List.length_append, List.length_dropLast] at hlength
      omega
    have hwhole : before ++ (delimiter ++ after)
        = before ++ delimiter.dropLast ++ delimiter.getLast hne :: after := by
      conv => lhs; rw [← hlast]
      simp
    rw [hwhole, ← heq, List.append_assoc, List.append_assoc]
    apply exists_first hne
  . exact ⟨before, after, rfl, h⟩
termination_by before.length

theorem exists_splits (hne : delimiter ≠ []) (text : List Char)
    : ∃ parts, Splits delimiter text parts := by
  by_cases h : delimiter <:+: text
  . obtain ⟨before, after, rfl⟩ := h
    obtain ⟨part, rest, heq, hfirst⟩ := exists_first hne before after
    have hless : rest.length < (before ++ delimiter ++ after).length := by
      have hpos := List.length_pos_iff.mpr hne
      rw [List.append_assoc, heq]
      simp only [List.length_append]
      omega
    obtain ⟨parts, hparts⟩ := exists_splits hne rest
    rw [List.append_assoc, heq]
    exact ⟨part :: parts, .next hfirst hparts⟩
  . exact ⟨[text], .last h⟩
termination_by text.length

theorem Splits.segments_eq (h : Splits delimiter text parts) (hne : delimiter ≠ [])
    : segments delimiter text = parts := by
  induction h with
  | last hnone => apply segments.go_of_absent hnone
  | next hfirst _ ih =>
    rw [← ih]
    apply segments.go_append hne hfirst

theorem segments_eq_iff (hne : delimiter ≠ [])
    : segments delimiter text = parts ↔ Splits delimiter text parts := by
  constructor
  . intro h
    obtain ⟨others, hothers⟩ := exists_splits hne text
    rw [← h, hothers.segments_eq hne]
    exact hothers
  . exact fun h => h.segments_eq hne

theorem Splits.ne_nil (h : Splits delimiter text parts) : parts ≠ [] := by
  cases h with
  | last => simp
  | next => simp

theorem Splits.not_infix_getLast (h : Splits delimiter text parts)
    : ∀ part, parts.getLast? = some part → ¬delimiter <:+: part := by
  induction h with
  | last hnone => simpa using hnone
  | next _ hrest ih =>
    rw [List.getLast?_cons_of_ne_nil hrest.ne_nil]
    exact ih

theorem Splits.suffix (h : Splits delimiter text parts) (hmore : 1 < parts.length)
    : ∀ part, parts.getLast? = some part → delimiter ++ part <:+ text := by
  induction h with
  | last => simp at hmore
  | @next first rest parts _ hrest ih =>
    intro part hpart
    rw [List.getLast?_cons_of_ne_nil hrest.ne_nil] at hpart
    cases hrest with
    | last =>
      rw [List.getLast?_singleton, Option.some.injEq] at hpart
      rw [hpart]
      apply List.suffix_append
    | next hfirst hlater =>
      have hlength := List.length_pos_iff.mpr hlater.ne_nil
      apply (ih (by simpa using hlength) part hpart).trans
      apply (List.suffix_append _ _).trans
      apply List.suffix_append

/--
No proper part of the delimiter is both its beginning and its end.
-/
def Unbordered (delimiter : List Char) : Prop :=
  ∀ border, border <+: delimiter → border <:+ delimiter → border = [] ∨ border = delimiter

theorem unbordered_singleton (c : Char) : Unbordered [c] := by
  intro border hbegins _
  cases border with
  | nil => simp
  | cons d border =>
    right
    apply hbegins.eq_of_length_le
    simp

/--
An occurrence at the end of `delimiter ++ part` shares characters with the one at its beginning, or
else it lies in the part.
-/
theorem eq_nil_of_suffix_append (h : Unbordered delimiter) {part : List Char}
    (hends : delimiter <:+ delimiter ++ part) (hpart : ¬delimiter <:+: part)
    : part = [] := by
  obtain ⟨front, hfront⟩ := hends
  obtain ⟨border, hbefore, hafter⟩ | ⟨between, -, hafter⟩ := List.append_eq_append_iff.mp hfront
  . obtain rfl | rfl := h border ⟨part, hafter.symm⟩ ⟨front, hbefore.symm⟩
    . rw [List.nil_append] at hafter
      rw [hafter] at hpart
      exact absurd List.infix_rfl hpart
    . simpa using hafter
  . rw [hafter] at hpart
    exact absurd (List.suffix_append between delimiter).isInfix hpart

end Text

namespace Script

open Text (Splits Unbordered)

/--
The parts without a return at the end of each, and without the last one if it is empty and there are
others.
-/
def linesOf (parts : List (List Char)) : List (List Char) :=
  (if 1 < parts.length ∧ parts.getLast? = some [] then parts.dropLast else parts).map withoutReturn

variable {delimiter text : List Char} {parts : List (List Char)}

theorem lines_eq (hne : delimiter ≠ []) (h : Splits delimiter text parts)
    : lines delimiter text
        =
      (if 1 < parts.length ∧ delimiter <:+ text then parts.dropLast else parts).map
        withoutReturn := by
  have hempty : ¬delimiter.isEmpty = true := by simp [hne]
  unfold lines
  simp only [if_neg hempty, h.segments_eq hne, List.length_map, List.isSuffixOf_iff_suffix,
    gt_iff_lt]
  split
  . rw [List.map_dropLast]
  . rfl

theorem lines_eq_linesOf_iff_of_splits (hne : delimiter ≠ []) (h : Splits delimiter text parts)
    : lines delimiter text = linesOf parts
        ↔
      ¬(1 < parts.length ∧ parts.getLast? ≠ some [] ∧ delimiter <:+ text) := by
  rw [lines_eq hne h]
  unfold linesOf
  by_cases hmore : 1 < parts.length
  . by_cases hempty : parts.getLast? = some []
    . have hends := h.suffix hmore [] hempty
      rw [List.append_nil] at hends
      simp [hmore, hempty, hends]
    . by_cases hends : delimiter <:+ text
      . have hless :
            (parts.dropLast.map withoutReturn).length ≠ (parts.map withoutReturn).length := by
          simp only [List.length_map, List.length_dropLast]
          omega
        simp only [hmore, hempty, hends, and_self, and_false, if_true, if_false, ne_eq,
          not_false_eq_true, not_true_eq_false, iff_false]
        exact fun heq => hless (congrArg List.length heq)
      . simp [hmore, hempty, hends]
  . simp [hmore]

theorem lines_eq_linesOf (hunbordered : Unbordered delimiter) (hne : delimiter ≠ [])
    (h : Splits delimiter text parts)
    : lines delimiter text = linesOf parts := by
  rw [lines_eq_linesOf_iff_of_splits hne h]
  rintro ⟨hmore, hlast, hends⟩
  obtain ⟨part, hpart⟩ := Option.ne_none_iff_exists'.mp
    (mt List.getLast?_eq_none_iff.mp h.ne_nil)
  have hoverlap : delimiter <:+ delimiter ++ part := by
    apply List.suffix_of_suffix_length_le hends (h.suffix hmore part hpart)
    simp
  apply hlast
  rw [hpart, Text.eq_nil_of_suffix_append hunbordered hoverlap (h.not_infix_getLast part hpart)]

/--
A text is divided in one way only. The lines are all of its parts, apart from an empty last one,
unless the delimiter is at the end of the text and the last part is not empty: then that part is lost.
This is never so if the delimiter cannot overlap itself.
-/
theorem lines_eq_linesOf_iff (hne : delimiter ≠ []) (text : List Char)
    : (∃! parts, Splits delimiter text parts)
        ∧ ∀ parts, Splits delimiter text parts →
            (lines delimiter text = linesOf parts
                ↔ ¬(1 < parts.length ∧ parts.getLast? ≠ some [] ∧ delimiter <:+ text))
              ∧ (lines delimiter text ≠ linesOf parts →
                  lines delimiter text = parts.dropLast.map withoutReturn)
              ∧ (Unbordered delimiter → lines delimiter text = linesOf parts) := by
  constructor
  . obtain ⟨parts, hparts⟩ := Text.exists_splits hne text
    refine ⟨parts, hparts, ?_⟩
    intro others hothers
    rw [← hothers.segments_eq hne, hparts.segments_eq hne]
  . intro parts hparts
    refine ⟨lines_eq_linesOf_iff_of_splits hne hparts, ?_, ?_⟩
    . rw [ne_eq, lines_eq_linesOf_iff_of_splits hne hparts, not_not]
      rintro ⟨hmore, -, hends⟩
      rw [lines_eq hne hparts, if_pos ⟨hmore, hends⟩]
    . exact fun hunbordered => lines_eq_linesOf hunbordered hne hparts

theorem lines_eq_linesOf_bars
    : lines ['|', '|'] "one||two||".toList = linesOf ["one".toList, "two".toList, []] := by
  have hparts : Splits ['|', '|'] "one||two||".toList ["one".toList, "two".toList, []] :=
    (Text.segments_eq_iff (by simp)).mp (by decide)
  apply ((lines_eq_linesOf_iff (by simp) _).2 _ hparts).1.mpr
  simp

theorem lines_ne_linesOf_dashes
    : ∃ parts, Splits ['-', '-'] "T--C--D--one---".toList parts
        ∧ parts.getLast? = some ['-']
        ∧ lines ['-', '-'] "T--C--D--one---".toList
            = ["T".toList, "C".toList, "D".toList, "one".toList]
        ∧ lines ['-', '-'] "T--C--D--one---".toList ≠ linesOf parts := by
  refine ⟨["T".toList, "C".toList, "D".toList, "one".toList, ['-']], ?_, rfl, ?_, ?_⟩
  . rw [← Text.segments_eq_iff (by simp)]
    decide
  . decide
  . decide

end Script

end Narrative
