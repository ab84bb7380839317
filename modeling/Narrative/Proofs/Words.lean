import Narrative.Decimal.Word
import Narrative.Proofs.Digits

/-!
This module contains which texts are decimal words, and which word is read of a text: the longest one
that the text begins with.
-/

namespace Narrative.Decimal

namespace Word

inductive Pointed : (fraction point : List Char) → Prop where
  | whole : Pointed [] []
  | point {fraction : List Char} : Digits fraction → Pointed fraction ('.' :: fraction)

inductive Powered : (exponent : Int) → (power : List Char) → Prop where
  | plain : Powered 0 []
  | power {mark : Char} {negative : Bool} {sign digits : List Char} :
    mark = 'e' ∨ mark = 'E' → Signed negative sign → Digits digits → digits ≠ [] →
      Powered (withSign negative (placeValue digits)) (mark :: (sign ++ digits))

/--
The text spells the word, from its first to its last character.
-/
inductive Spelled : Word → (text : List Char) → Prop where
  | word {negative : Bool} {sign whole fraction point power : List Char} {exponent : Int} :
    Signed negative sign → Digits whole → Pointed fraction point →
      ¬(whole = [] ∧ fraction = []) → Powered exponent power →
        Spelled ⟨negative, whole, fraction, exponent⟩ (sign ++ (whole ++ (point ++ power)))

/--
The text begins with `spelling`, which is a word, and with no longer word.
-/
structure Longest (text spelling : List Char) : Prop where
  isWord : ∃ word : Word, word.Spelled spelling
  isPrefix : spelling <+: text
  longest : ∀ other, other <+: text → (∃ word : Word, word.Spelled other) →
    other.length ≤ spelling.length

theorem scan_eq (cs : List Char)
    : scan cs
        =
      let signed := takeSign cs
      let whole := takeDigits signed.2
      let fraction := takeFraction whole.2
      let exponent := takeExponent fraction.2
      if whole.1 = [] ∧ fraction.1 = [] then none
      else some (⟨signed.1, whole.1, fraction.1, exponent.1⟩, exponent.2) := by
  unfold scan
  simp

theorem takeFraction_cases (cs : List Char)
    : ∃ point, Pointed (takeFraction cs).1 point ∧ cs = point ++ (takeFraction cs).2 := by
  unfold takeFraction
  split
  . next cs =>
    refine ⟨_, .point (takeDigits_digits cs), ?_⟩
    rw [List.cons_append, ← takeDigits_eq]
  . exact ⟨_, .whole, rfl⟩

theorem takeExponent_cons (mark : Char) (cs : List Char)
    : takeExponent (mark :: cs)
        =
      let (negative, unsigned) := takeSign cs
      let (digits, rest) := takeDigits unsigned
      if (mark = 'e' ∨ mark = 'E') ∧ digits ≠ [] then (withSign negative (ofDigits digits), rest)
      else (0, mark :: cs) := by
  unfold takeExponent withSign
  dsimp only
  by_cases hmark : mark = 'e' ∨ mark = 'E'
  . rw [if_pos hmark]
    cases takeDigits (takeSign cs).2 with
    | mk digits rest =>
      cases digits with
      | nil => simp
      | cons d digits => simp [hmark]
  . rw [if_neg hmark, if_neg fun h => hmark h.1]

theorem takeExponent_cases (cs : List Char)
    : ∃ power, Powered (takeExponent cs).1 power ∧ cs = power ++ (takeExponent cs).2 := by
  cases cs with
  | nil => exact ⟨_, .plain, rfl⟩
  | cons mark cs =>
    obtain ⟨sign, hsign, hcs, _⟩ := takeSign_cases cs
    have hdigits := takeDigits_digits (takeSign cs).2
    have hrest := takeDigits_eq (takeSign cs).2
    rw [takeExponent_cons]
    dsimp only
    split
    . next hpower =>
      rw [ofDigits_eq_placeValue]
      refine ⟨_, .power hpower.1 hsign hdigits hpower.2, ?_⟩
      rw [List.cons_append, List.append_assoc, ← hrest, ← hcs]
    . exact ⟨_, .plain, rfl⟩

theorem scan_cases {cs rest : List Char} {word : Word} (h : scan cs = some (word, rest))
    : ∃ spelling, word.Spelled spelling ∧ cs = spelling ++ rest := by
  rw [scan_eq] at h
  dsimp only at h
  split at h
  . contradiction
  . next hne =>
    obtain ⟨sign, hsign, hcs, _⟩ := takeSign_cases cs
    have hwhole := takeDigits_eq (takeSign cs).2
    obtain ⟨point, hpoint, hfraction⟩ := takeFraction_cases (takeDigits (takeSign cs).2).2
    obtain ⟨power, hpower, hexponent⟩ :=
      takeExponent_cases (takeFraction (takeDigits (takeSign cs).2).2).2
    simp only [Option.some.injEq, Prod.mk.injEq] at h
    rw [← h.1, ← h.2]
    refine ⟨_, .word hsign (takeDigits_digits _) hpoint hne hpower, ?_⟩
    rw [List.append_assoc, List.append_assoc, List.append_assoc, ← hexponent, ← hfraction, ← hwhole]
    exact hcs

theorem takeDigits_suffix (cs : List Char) : (takeDigits cs).2 <:+ cs := by
  apply List.dropWhile_suffix

theorem takeFraction_suffix (cs : List Char) : (takeFraction cs).2 <:+ cs := by
  obtain ⟨point, _, hcs⟩ := takeFraction_cases cs
  exact ⟨point, hcs.symm⟩

theorem takeExponent_suffix (cs : List Char) : (takeExponent cs).2 <:+ cs := by
  obtain ⟨power, _, hcs⟩ := takeExponent_cases cs
  exact ⟨power, hcs.symm⟩

/--
What is left is an end of `rest`, which comes behind the power, so the power has been taken. If
nothing comes behind it, the exponent is that of the power.
-/
structure Reaches (exponent : Int) (rest : List Char) (taken : Int × List Char) : Prop where
  suffix : taken.2 <:+ rest
  exact : rest = [] → taken = (exponent, [])

theorem Reaches.of_suffix {cs rest : List Char} (h : cs <:+ rest)
    : Reaches 0 rest (takeExponent cs) where
  suffix := (takeExponent_suffix cs).trans h
  exact := by
    intro hrest
    rw [hrest, List.suffix_nil] at h
    rw [h]
    rfl

theorem breaks_power {mark : Char} (hmark : mark = 'e' ∨ mark = 'E') (cs : List Char)
    : Breaks (mark :: cs) := by
  intro c hhead
  rw [← Option.some.inj hhead]
  cases hmark with
  | inl h =>
    rw [h]
    rfl
  | inr h =>
    rw [h]
    rfl

theorem takeExponent_power {mark : Char} {negative : Bool} {sign digits : List Char}
    (hmark : mark = 'e' ∨ mark = 'E') (hsign : Signed negative sign) (hdigits : Digits digits)
    (hne : digits ≠ []) (rest : List Char)
    : Reaches (withSign negative (placeValue digits)) rest
        (takeExponent (mark :: (sign ++ digits) ++ rest)) := by
  have hsigned : takeSign (sign ++ (digits ++ rest)) = (negative, digits ++ rest) := by
    apply takeSign_append hsign
    intro c hhead
    apply ne_sign_of_isDigit (head_of_digits hdigits hne rest hhead)
  have htaken : takeExponent (mark :: (sign ++ digits) ++ rest)
      = (withSign negative (ofDigits (digits ++ (takeDigits rest).1)), (takeDigits rest).2) := by
    rw [List.cons_append, List.append_assoc, takeExponent_cons, hsigned]
    dsimp only
    rw [takeDigits_append hdigits]
    simp [hmark, hne]
  rw [htaken]
  constructor
  . apply takeDigits_suffix
  . intro hrest
    rw [hrest, ofDigits_eq_placeValue]
    simp [takeDigits]

/--
Digits behind the digits of a word are taken with them, and then an exponent.
-/
theorem takeDigits_reaches {exponent : Int} {power : List Char} (h : Powered exponent power)
    (rest : List Char)
    : Reaches exponent rest (takeExponent (takeDigits (power ++ rest)).2)
        ∧ (rest = [] → (takeDigits (power ++ rest)).1 = []) := by
  cases h with
  | plain =>
    rw [List.nil_append]
    refine ⟨.of_suffix (takeDigits_suffix rest), ?_⟩
    intro hrest
    rw [hrest]
    rfl
  | @power mark negative sign digits hmark hsign hdigits hne =>
    have hbreaks := takeDigits_of_breaks (breaks_power hmark ((sign ++ digits) ++ rest))
    rw [List.cons_append, hbreaks]
    exact ⟨takeExponent_power hmark hsign hdigits hne rest, fun _ => rfl⟩

/--
A word without a point may find one behind its digits, with more digits behind that.
-/
theorem takeFraction_reaches {exponent : Int} {power : List Char} (h : Powered exponent power)
    (rest : List Char)
    : let fraction := takeFraction (takeDigits (power ++ rest)).2
      Reaches exponent rest (takeExponent fraction.2) ∧ (rest = [] → fraction.1 = []) := by
  cases h with
  | plain =>
    rw [List.nil_append]
    refine ⟨.of_suffix ((takeFraction_suffix _).trans (takeDigits_suffix rest)), ?_⟩
    intro hrest
    rw [hrest]
    rfl
  | @power mark negative sign digits hmark hsign hdigits hne =>
    have hbreaks := takeDigits_of_breaks (breaks_power hmark ((sign ++ digits) ++ rest))
    have hnone (cs : List Char) : takeFraction (mark :: cs) = ([], mark :: cs) := by
      cases hmark with
      | inl h =>
        rw [h]
        rfl
      | inr h =>
        rw [h]
        rfl
    rw [List.cons_append, hbreaks, hnone]
    exact ⟨takeExponent_power hmark hsign hdigits hne rest, fun _ => rfl⟩

/--
A word begins with its sign, or else with a digit or the point.
-/
theorem ne_sign_of_head {whole fraction point : List Char} (hwhole : Digits whole)
    (hpoint : Pointed fraction point) (hne : ¬(whole = [] ∧ fraction = [])) (rest : List Char)
    {c : Char} (hhead : (whole ++ (point ++ rest)).head? = some c)
    : c ≠ '+' ∧ c ≠ '-' := by
  by_cases hnone : whole = []
  . rw [hnone] at hhead hne
    cases hpoint with
    | whole => simp at hne
    | point =>
      rw [← Option.some.inj hhead]
      decide
  . apply ne_sign_of_isDigit (head_of_digits hwhole hnone _ hhead)

/--
The digits of the fraction are taken, and then an exponent. If nothing comes behind the word, no more
is taken than belongs to it.
-/
theorem takeFraction_point {fraction point power : List Char} {exponent : Int}
    (hpoint : Pointed fraction point) (hpower : Powered exponent power) (rest : List Char)
    : let whole := takeDigits (point ++ (power ++ rest))
      let taken := takeFraction whole.2
      fraction <+: taken.1
        ∧ Reaches exponent rest (takeExponent taken.2)
        ∧ (rest = [] → whole.1 = [] ∧ taken.1 = fraction) := by
  cases hpoint with
  | whole =>
    obtain ⟨hreaches, hfraction⟩ := takeFraction_reaches hpower rest
    refine ⟨List.nil_prefix, hreaches, ?_⟩
    intro hrest
    exact ⟨(takeDigits_reaches hpower rest).2 hrest, hfraction hrest⟩
  | point hdigits =>
    have hbreaks : Breaks ('.' :: (fraction ++ (power ++ rest))) := by
      intro c hhead
      rw [← Option.some.inj hhead]
      rfl
    obtain ⟨hreaches, hmore⟩ := takeDigits_reaches hpower rest
    have htaken (cs : List Char) : takeFraction ('.' :: cs) = takeDigits cs := rfl
    rw [List.cons_append, takeDigits_of_breaks hbreaks]
    dsimp only
    rw [htaken, takeDigits_append hdigits]
    refine ⟨List.prefix_append _ _, hreaches, ?_⟩
    intro hrest
    simp [hmore hrest]

/--
Of a text that begins with a word, at least the word is read, and just the word if it is all.
-/
theorem scan_append {word : Word} {spelling : List Char} (h : word.Spelled spelling)
    (rest : List Char)
    : ∃ read left, scan (spelling ++ rest) = some (read, left)
        ∧ left <:+ rest
        ∧ (rest = [] → read = word) := by
  cases h with
  | @word negative sign whole fraction point power exponent hsign hwhole hpoint hne hpower =>
    have hsigned : takeSign (sign ++ (whole ++ (point ++ (power ++ rest))))
        = (negative, whole ++ (point ++ (power ++ rest))) := by
      apply takeSign_append hsign
      intro c hhead
      apply ne_sign_of_head hwhole hpoint hne _ hhead
    obtain ⟨hfraction, hreaches, hexact⟩ := takeFraction_point hpoint hpower rest
    have hdigits : ¬(whole ++ (takeDigits (point ++ (power ++ rest))).1 = []
        ∧ (takeFraction (takeDigits (point ++ (power ++ rest))).2).1 = []) := by
      rintro ⟨hwhole, hnone⟩
      rw [hnone, List.prefix_nil] at hfraction
      exact hne ⟨(List.append_eq_nil_iff.mp hwhole).1, hfraction⟩
    rw [scan_eq, List.append_assoc, List.append_assoc, List.append_assoc, hsigned]
    dsimp only
    rw [takeDigits_append hwhole, if_neg hdigits]
    refine ⟨_, _, rfl, hreaches.suffix, ?_⟩
    intro hrest
    rw [(hexact hrest).1, (hexact hrest).2, hreaches.exact hrest, List.append_nil]

theorem Spelled.scan {word : Word} {spelling : List Char} (h : word.Spelled spelling)
    : scan spelling = some (word, []) := by
  obtain ⟨read, left, hscan, hleft, hread⟩ := scan_append h []
  rw [List.append_nil, List.suffix_nil.mp hleft, hread rfl] at hscan
  exact hscan

/--
What is read is spelled by the longest word that the text begins with.
-/
theorem Longest.of_scan {text rest : List Char} {word : Word} (h : scan text = some (word, rest))
    : ∃ spelling, word.Spelled spelling ∧ Longest text spelling := by
  obtain ⟨spelling, hspelled, htext⟩ := scan_cases h
  refine ⟨spelling, hspelled, ⟨word, hspelled⟩, ⟨rest, htext.symm⟩, ?_⟩
  rintro other ⟨after, hafter⟩ ⟨read, hread⟩
  obtain ⟨_, left, hscan, hleft, _⟩ := scan_append hread after
  rw [hafter, h, Option.some.injEq, Prod.mk.injEq] at hscan
  rw [← hscan.2] at hleft
  have hshort := hleft.length_le
  have hsize := congrArg List.length (hafter.trans htext)
  rw [List.length_append, List.length_append] at hsize
  omega

example : scan ['1', 'e', '5', '-', '3'] = some (⟨false, ['1'], [], 5⟩, ['-', '3']) := rfl

theorem Longest.unique {text spelling other : List Char} (h : Longest text spelling)
    (hother : Longest text other)
    : spelling = other := by
  have hle := hother.longest spelling h.isPrefix h.isWord
  have hge := h.longest other hother.isPrefix hother.isWord
  apply (List.prefix_of_prefix_length_le h.isPrefix hother.isPrefix hle).eq_of_length
  omega

theorem Longest.scan {text spelling : List Char} {word : Word} (h : Longest text spelling)
    (hspelled : word.Spelled spelling)
    : ∃ rest, scan text = some (word, rest) := by
  obtain ⟨after, hafter⟩ := h.isPrefix
  obtain ⟨read, left, hscan, _, _⟩ := scan_append hspelled after
  rw [hafter] at hscan
  obtain ⟨other, hread, hlongest⟩ := Longest.of_scan hscan
  have hsame := hread.scan
  rw [hlongest.unique h, hspelled.scan, Option.some.injEq, Prod.mk.injEq] at hsame
  refine ⟨left, ?_⟩
  rw [hscan, hsame.1]

theorem Spelled.ne_nil {word : Word} {spelling : List Char} (h : word.Spelled spelling)
    : spelling ≠ [] := by
  intro hnil
  have hscan := h.scan
  rw [hnil] at hscan
  contradiction

end Word

end Narrative.Decimal
