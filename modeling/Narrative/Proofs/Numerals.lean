import Narrative.Decimal.Strict
import Narrative.Proofs.Words

/-!
This module contains which decimal number a text begins with. It is found by trying ever shorter
beginnings of what looks like a number, and that is the same as reading the longest word.
-/

namespace Narrative.Decimal

open Text (Ascii)
open Word (Spelled Longest)

def isNumeral (c : Char) : Bool :=
  c.isDigit || ['+', '-', '.', 'e', 'E'].contains c

def Numerals (cs : List Char) : Prop :=
  ∀ c ∈ cs, isNumeral c = true

/--
The first beginning that can be read strictly: that of `size` bytes, that of one byte less, and so on.
There is no answer at all if one of them would end inside a character.
-/
def retreat? (text : List Char) : (size : Nat) → Option (Option Float)
  | 0 => some none
  | size + 1 =>
    (Text.splitAt? text (size + 1)).bind fun (word, _) =>
      match float? word with
      | some x => some (some x)
      | none => retreat? text size

/--
The leading number of a text that is divided by counts of bytes. What is tried first is the whole run
of bytes that may be part of a number.
-/
def leadingFloatOfBytes? (text : List Char) : Option (Option Float) :=
  let text := Text.trimStart text
  let size := ((Text.bytes text).takeWhile (Text.isByteOf isNumeral)).length
  (retreat? text size).map fun x? => x?.filter Float.isFinite

theorem isNumeral_of_isDigit {c : Char} (h : c.isDigit = true) : isNumeral c = true := by
  simp [isNumeral, h]

theorem isNumeral_iff {c : Char}
    : isNumeral c = true ↔ c.isDigit = true ∨ c ∈ ['+', '-', '.', 'e', 'E'] := by
  unfold isNumeral
  rw [Bool.or_eq_true, List.contains_iff_mem]

theorem toNat_of_isNumeral {c : Char} (h : isNumeral c = true) : 43 ≤ c.toNat ∧ c.toNat ≤ 101 := by
  cases isNumeral_iff.mp h with
  | inl hdigit =>
    have := toNat_of_isDigit hdigit
    omega
  | inr hother =>
    simp only [List.mem_cons, List.not_mem_nil, or_false] at hother
    rcases hother with hc | hc | hc | hc | hc <;> rw [hc] <;> decide

theorem ascii_of_isNumeral {c : Char} (h : isNumeral c = true) : c.toNat < 128 := by
  have := toNat_of_isNumeral h
  omega

theorem isBlank_of_isNumeral {c : Char} (h : isNumeral c = true) : Text.isBlank c = false := by
  have := toNat_of_isNumeral h
  apply Text.isBlank_of_visible
  . omega
  . omega

/--
The words for the numbers that are not finite begin otherwise.
-/
theorem toLower_of_isNumeral {c : Char} (h : isNumeral c = true)
    : c.toLower ≠ 'i' ∧ c.toLower ≠ 'n' := by
  cases isNumeral_iff.mp h with
  | inl hdigit =>
    have hsame : c.toLower = c := by
      unfold Char.toLower
      rw [dif_neg]
      intro hupper
      have := UInt32.le_iff_toNat_le.mp hupper.1
      change 65 ≤ c.toNat at this
      have := toNat_of_isDigit hdigit
      omega
    rw [hsame]
    constructor
    . intro hc
      simp [hc] at hdigit
    . intro hc
      simp [hc] at hdigit
  | inr hother =>
    simp only [List.mem_cons, List.not_mem_nil, or_false] at hother
    rcases hother with hc | hc | hc | hc | hc <;> rw [hc] <;> decide

theorem Digits.numerals {digits : List Char} (h : Digits digits) : Numerals digits := by
  intro c hmem
  apply isNumeral_of_isDigit (h c hmem)

theorem Signed.numerals {negative : Bool} {sign : List Char} (h : Signed negative sign)
    : Numerals sign := by
  cases h with
  | unsigned => simp [Numerals]
  | plus => simp [Numerals, isNumeral]
  | minus => simp [Numerals, isNumeral]

theorem Numerals.append {cs ds : List Char} (hcs : Numerals cs) (hds : Numerals ds)
    : Numerals (cs ++ ds) := by
  rw [Numerals, List.forall_mem_append]
  exact ⟨hcs, hds⟩

theorem Numerals.cons {c : Char} {cs : List Char} (hc : isNumeral c = true) (hcs : Numerals cs)
    : Numerals (c :: cs) := by
  rw [Numerals, List.forall_mem_cons]
  exact ⟨hc, hcs⟩

theorem Word.Pointed.numerals {fraction point : List Char} (h : Pointed fraction point)
    : Numerals point := by
  cases h with
  | whole => simp [Numerals]
  | point hfraction => apply Numerals.cons rfl hfraction.numerals

theorem Word.Powered.numerals {exponent : Int} {power : List Char} (h : Powered exponent power)
    : Numerals power := by
  cases h with
  | plain => simp [Numerals]
  | power hmark hsign hdigits hne =>
    apply Numerals.cons _ (hsign.numerals.append hdigits.numerals)
    rcases hmark with h | h <;> rw [h] <;> rfl

theorem Word.Spelled.numerals {word : Word} {spelling : List Char} (h : word.Spelled spelling)
    : Numerals spelling := by
  cases h with
  | word hsign hwhole hpoint hne hpower =>
    exact hsign.numerals.append (hwhole.numerals.append (hpoint.numerals.append hpower.numerals))

theorem float?_of_spelled {word : Word} {spelling : List Char} (h : word.Spelled spelling)
    : float? spelling = some word.value := by
  unfold float?
  rw [h.scan]

theorem float?_of_not_spelled {text : List Char} (hnumerals : Numerals text)
    (h : ∀ word : Word, ¬word.Spelled text)
    : float? text = none := by
  unfold float?
  split
  . next word hscan =>
    obtain ⟨spelling, hspelled, htext⟩ := Word.scan_cases hscan
    rw [List.append_nil] at htext
    exact absurd (htext ▸ hspelled) (h word)
  . obtain ⟨sign, _, htext, _⟩ := takeSign_cases text
    dsimp only
    cases hunsigned : (takeSign text).2 with
    | nil => rfl
    | cons c cs =>
      have hmem : c ∈ text := by
        rw [htext, hunsigned]
        simp
      have hlower := toLower_of_isNumeral (hnumerals c hmem)
      rw [Option.map_eq_none_iff, List.map_cons]
      split
      . next h => exact absurd (List.cons.inj h).1 hlower.1
      . next h => exact absurd (List.cons.inj h).1 hlower.1
      . next h => exact absurd (List.cons.inj h).1 hlower.2
      . rfl

theorem Numerals.ascii {cs : List Char} (h : Numerals cs) : Ascii cs := by
  intro c hmem
  apply ascii_of_isNumeral (h c hmem)

theorem Numerals.prefix_takeWhile {cs text : List Char} (h : Numerals cs) (hbegins : cs <+: text)
    : cs <+: text.takeWhile isNumeral := by
  obtain ⟨rest, hrest⟩ := hbegins
  rw [← hrest, List.takeWhile_append_of_pos h]
  apply List.prefix_append

theorem numerals_take {text : List Char} {size : Nat}
    (hsize : size ≤ (text.takeWhile isNumeral).length)
    : Numerals (text.take size) := by
  have htake : text.take size = (text.takeWhile isNumeral).take size := by
    conv => lhs; rw [← List.takeWhile_append_dropWhile (p := isNumeral) (l := text)]
    apply List.take_append_of_le_length hsize
  intro c hmem
  rw [htake] at hmem
  exact List.all_eq_true.mp List.all_takeWhile c (List.mem_of_mem_take hmem)

theorem length_take_numerals {text : List Char} {size : Nat}
    (hsize : size ≤ (text.takeWhile isNumeral).length)
    : (text.take size).length = size := by
  apply List.length_take_of_le
  apply Nat.le_trans hsize (List.takeWhile_prefix isNumeral).length_le

theorem retreat?_succ {text : List Char} {size : Nat}
    (hsize : size + 1 ≤ (text.takeWhile isNumeral).length)
    : retreat? text (size + 1)
        =
      match float? (text.take (size + 1)) with
      | some x => some (some x)
      | none => retreat? text size := by
  have hsplit := Text.splitAt?_of_ascii (numerals_take hsize).ascii (text.drop (size + 1))
  rw [List.take_append_drop, length_take_numerals hsize] at hsplit
  rw [retreat?, hsplit]
  rfl

/--
Where no beginning is a word, none is found.
-/
theorem retreat?_of_not_spelled {text : List Char}
    (h : ∀ cs, cs <+: text → ∀ word : Word, ¬word.Spelled cs) {size : Nat}
    (hsize : size ≤ (text.takeWhile isNumeral).length)
    : retreat? text size = some none := by
  induction size with
  | zero => rfl
  | succ size ih =>
    rw [retreat?_succ hsize,
      float?_of_not_spelled (numerals_take hsize) (h _ (List.take_prefix _ _))]
    apply ih
    omega

/--
The first beginning that is a word is the longest one, as every longer one has been tried before.
-/
theorem retreat?_of_longest {text spelling : List Char} {word : Word}
    (h : Longest text spelling) (hspelled : word.Spelled spelling) {size : Nat}
    (hle : spelling.length ≤ size) (hsize : size ≤ (text.takeWhile isNumeral).length)
    : retreat? text size = some (some word.value) := by
  induction size with
  | zero =>
    have := List.length_pos_iff.mpr hspelled.ne_nil
    omega
  | succ size ih =>
    rw [retreat?_succ hsize]
    by_cases hlength : spelling.length = size + 1
    . rw [← hlength, ← List.prefix_iff_eq_take.mp h.isPrefix, float?_of_spelled hspelled]
    . have hlonger (other : Word) : ¬other.Spelled (text.take (size + 1)) := by
        intro hother
        have hmax := h.longest _ (List.take_prefix _ _) ⟨other, hother⟩
        rw [length_take_numerals hsize] at hmax
        omega
      rw [float?_of_not_spelled (numerals_take hsize) hlonger]
      apply ih
      . omega
      . omega

theorem leadingFloat?_eq (text : List Char)
    : leadingFloat? text
        = ((Word.scan (Text.trimStart text)).map fun (word, _) => word.value).filter
            Float.isFinite := by
  unfold leadingFloat?
  cases Word.scan (Text.trimStart text) with
  | none => rfl
  | some read => rfl

theorem leadingFloatOfBytes?_eq (text : List Char)
    : leadingFloatOfBytes? text = some (leadingFloat? text) := by
  rw [leadingFloat?_eq]
  unfold leadingFloatOfBytes?
  dsimp only
  generalize Text.trimStart text = text
  rw [Text.length_takeWhile_isByteOf fun _ => ascii_of_isNumeral]
  cases hscan : Word.scan text with
  | none =>
    have hnone : ∀ cs, cs <+: text → ∀ word : Word, ¬word.Spelled cs := by
      rintro cs ⟨rest, hrest⟩ word hspelled
      obtain ⟨read, left, hread, _, _⟩ := Word.scan_append hspelled rest
      rw [hrest, hscan] at hread
      contradiction
    rw [retreat?_of_not_spelled hnone (Nat.le_refl _)]
    rfl
  | some read =>
    obtain ⟨spelling, hspelled, hlongest⟩ := Longest.of_scan hscan
    have hrun := (hspelled.numerals.prefix_takeWhile hlongest.isPrefix).length_le
    rw [retreat?_of_longest hlongest hspelled hrun (Nat.le_refl _)]
    rfl

theorem leadingFloat?_eq_some_iff {text : List Char} {x : Float}
    : leadingFloat? text = some x
        ↔ ∃ spelling, ∃ word : Word, Longest (Text.trimStart text) spelling
          ∧ word.Spelled spelling
          ∧ x = word.value
          ∧ x.isFinite = true := by
  rw [leadingFloat?_eq, Option.filter_eq_some_iff, Option.map_eq_some_iff]
  constructor
  . rintro ⟨⟨⟨word, rest⟩, hscan, hx⟩, hfinite⟩
    obtain ⟨spelling, hspelled, hlongest⟩ := Longest.of_scan hscan
    exact ⟨spelling, word, hlongest, hspelled, hx.symm, hfinite⟩
  . rintro ⟨spelling, word, hlongest, hspelled, hx, hfinite⟩
    obtain ⟨rest, hscan⟩ := hlongest.scan hspelled
    exact ⟨⟨(word, rest), hscan, hx.symm⟩, hfinite⟩

theorem trimStart_spelled {word : Word} {spelling : List Char} (h : word.Spelled spelling)
    : Text.trimStart spelling = spelling := by
  apply Text.trimStart_of_head
  intro c hhead
  apply isBlank_of_isNumeral (h.numerals c (List.mem_of_head? hhead))

theorem leadingFloat?_of_longest {text spelling : List Char}
    (h : Longest (Text.trimStart text) spelling)
    : leadingFloat? text = leadingFloat? spelling := by
  obtain ⟨word, hspelled⟩ := h.isWord
  obtain ⟨rest, hscan⟩ := h.scan hspelled
  rw [leadingFloat?_eq, leadingFloat?_eq, hscan, trimStart_spelled hspelled, hspelled.scan]
  rfl

/--
Behind white space, a text is read as the longest word that it begins with, if the value of the word is
finite. What comes behind the word does not matter. Trying ever shorter beginnings leads to the same
number, and none of them ends inside a character.
-/
theorem leadingFloat?_reads (text : List Char)
    : leadingFloatOfBytes? text = some (leadingFloat? text)
        ∧ (∀ x, leadingFloat? text = some x
          ↔ ∃ spelling, ∃ word : Word, Longest (Text.trimStart text) spelling
            ∧ word.Spelled spelling
            ∧ x = word.value
            ∧ x.isFinite = true)
        ∧ ∀ spelling, Longest (Text.trimStart text) spelling →
          leadingFloat? text = leadingFloat? spelling := by
  refine ⟨leadingFloatOfBytes?_eq text, ?_, ?_⟩
  . intro x
    apply leadingFloat?_eq_some_iff
  . intro spelling hlongest
    apply leadingFloat?_of_longest hlongest

end Narrative.Decimal
