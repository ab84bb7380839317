import Mathlib.Data.List.Induction
import Mathlib.Data.Nat.Digits.Defs
import Narrative.Decimal.Leading
import Narrative.Proofs.Blanks
import Narrative.Proofs.Bytes
import Narrative.Script.Elements

/-!
This module contains which whole number a text begins with: white space, a sign, and as many digits
as there are. Whatever is behind the digits is left alone, and how often a sequence is played is such
a number.
-/

namespace Narrative

namespace Decimal

open Text (Ascii Blank)

inductive Signed : (negative : Bool) → (sign : List Char) → Prop where
  | unsigned : Signed false []
  | plus : Signed false ['+']
  | minus : Signed true ['-']

def Digits (cs : List Char) : Prop :=
  ∀ c ∈ cs, c.isDigit = true

/--
No further digit follows.
-/
def Breaks (rest : List Char) : Prop :=
  ∀ c, rest.head? = some c → c.isDigit = false

def withSign (negative : Bool) (n : Nat) : Int :=
  if negative then -n else n

/--
The value of digits by their places: the last one counts once, the one before ten times, and so on.
-/
def placeValue (digits : List Char) : Nat :=
  Nat.ofDigits 10 (digits.reverse.map fun c => c.toNat - '0'.toNat)

/--
The text begins with the number `n`, behind white space, and no digit of it is left over.
-/
def BeginsWith (text : List Char) (n : Int) : Prop :=
  ∃ blanks negative sign digits rest,
    text = blanks ++ (sign ++ (digits ++ rest))
      ∧ Blank blanks
      ∧ Signed negative sign
      ∧ Digits digits
      ∧ digits ≠ []
      ∧ Breaks rest
      ∧ n = withSign negative (placeValue digits)

/--
The strict reading of a whole number of 64 bits: all of the text has to be the number.
-/
def int64? (text : List Char) : Option Int :=
  let (negative, digits) := takeSign text
  if digits.isEmpty || !digits.all Char.isDigit then none
  else if fitsInt64 (withSign negative (ofDigits digits)) then
    some (withSign negative (ofDigits digits))
  else none

/--
The leading number of a text that is divided by counts of bytes. There is no answer at all if a
division falls inside a character.
-/
def leadingIntOfBytes? (text : List Char) : Option (Option Int) :=
  let text := Text.trimStart text
  let signSize := if text.head?.any (['+', '-'].contains ·) then 1 else 0
  (Text.splitAt? text signSize).bind fun (_, unsigned) =>
    let size := ((Text.bytes unsigned).takeWhile (Text.isByteOf Char.isDigit)).length
    if size = 0 then some none
    else (Text.splitAt? text (signSize + size)).map fun (word, _) => int64? word

theorem ofDigits_eq_placeValue (digits : List Char) : ofDigits digits = placeValue digits := by
  induction digits using List.reverseRecOn with
  | nil => rfl
  | append_singleton digits c ih =>
    unfold ofDigits placeValue at ih ⊢
    rw [List.foldl_append, ih, List.reverse_append, List.reverse_singleton, List.singleton_append,
      List.map_cons, Nat.ofDigits_cons]
    dsimp only [List.foldl_cons, List.foldl_nil]
    omega

theorem toNat_of_isDigit {c : Char} (h : c.isDigit = true) : 48 ≤ c.toNat ∧ c.toNat ≤ 57 := by
  simpa [Char.isDigit, UInt32.le_iff_toNat_le] using h

theorem ascii_of_isDigit {c : Char} (h : c.isDigit = true) : c.toNat < 128 := by
  have := toNat_of_isDigit h
  omega

theorem isBlank_of_isDigit {c : Char} (h : c.isDigit = true) : Text.isBlank c = false := by
  have := toNat_of_isDigit h
  apply Text.isBlank_of_visible
  . omega
  . omega

theorem Digits.ascii {digits : List Char} (h : Digits digits) : Ascii digits := by
  intro c hmem
  apply ascii_of_isDigit (h c hmem)

theorem Signed.ascii {negative : Bool} {sign : List Char} (h : Signed negative sign)
    : Ascii sign := by
  cases h <;> simp [Ascii]

theorem takeSign_cases (cs : List Char)
    : ∃ sign, Signed (takeSign cs).1 sign
        ∧ cs = sign ++ (takeSign cs).2
        ∧ sign.length = if cs.head?.any (['+', '-'].contains ·) then 1 else 0 := by
  unfold takeSign
  split
  . exact ⟨_, .minus, rfl, rfl⟩
  . exact ⟨_, .plus, rfl, rfl⟩
  . next hminus hplus =>
    refine ⟨_, .unsigned, rfl, ?_⟩
    cases cs with
    | nil => rfl
    | cons c cs =>
      have hnone : c ≠ '-' ∧ c ≠ '+' := by
        refine ⟨?_, ?_⟩
        . exact fun h => hminus cs (by rw [h])
        . exact fun h => hplus cs (by rw [h])
      simp [hnone]

theorem takeSign_append {negative : Bool} {sign rest : List Char} (h : Signed negative sign)
    (hrest : ∀ c, rest.head? = some c → c ≠ '+' ∧ c ≠ '-')
    : takeSign (sign ++ rest) = (negative, rest) := by
  cases h with
  | plus => rfl
  | minus => rfl
  | unsigned =>
    rw [List.nil_append]
    unfold takeSign
    split
    . exact absurd rfl (hrest '-' rfl).2
    . exact absurd rfl (hrest '+' rfl).1
    . rfl

theorem takeDigits_append {digits : List Char} (h : Digits digits) (rest : List Char)
    : takeDigits (digits ++ rest) = (digits ++ (takeDigits rest).1, (takeDigits rest).2) := by
  unfold takeDigits
  rw [List.takeWhile_append_of_pos h, List.dropWhile_append_of_pos h]

theorem takeDigits_of_breaks {rest : List Char} (h : Breaks rest)
    : takeDigits rest = ([], rest) := by
  cases rest with
  | nil => rfl
  | cons c rest => simp [takeDigits, h c rfl]

theorem takeDigits_digits (cs : List Char) : Digits (takeDigits cs).1 := by
  apply List.all_eq_true.mp List.all_takeWhile

theorem takeDigits_breaks (cs : List Char) : Breaks (takeDigits cs).2 := by
  intro c hhead
  have := List.head?_dropWhile_not Char.isDigit cs
  rw [takeDigits] at hhead
  rw [hhead] at this
  exact this

theorem takeDigits_eq (cs : List Char) : cs = (takeDigits cs).1 ++ (takeDigits cs).2 := by
  simp [takeDigits]

theorem ne_sign_of_isDigit {c : Char} (h : c.isDigit = true) : c ≠ '+' ∧ c ≠ '-' := by
  constructor
  . intro hc
    simp [hc] at h
  . intro hc
    simp [hc] at h

theorem head_of_digits {digits : List Char} (h : Digits digits) (hne : digits ≠ [])
    (rest : List Char) {c : Char} (hhead : (digits ++ rest).head? = some c)
    : c.isDigit = true := by
  cases digits with
  | nil => contradiction
  | cons d digits =>
    rw [← Option.some.inj hhead]
    apply h d List.mem_cons_self

theorem trimStart_number {negative : Bool} {sign digits : List Char} (hsign : Signed negative sign)
    (hdigits : Digits digits) (hne : digits ≠ []) (rest : List Char)
    : Text.trimStart (sign ++ (digits ++ rest)) = sign ++ (digits ++ rest) := by
  apply Text.trimStart_of_head
  intro c hhead
  cases hsign with
  | unsigned => exact isBlank_of_isDigit (head_of_digits hdigits hne rest hhead)
  | plus =>
    rw [← Option.some.inj hhead]
    rfl
  | minus =>
    rw [← Option.some.inj hhead]
    rfl

theorem leadingInt?_eq (text : List Char)
    : leadingInt? text
        =
      let (negative, unsigned) := takeSign (Text.trimStart text)
      let digits := (takeDigits unsigned).1
      if digits = [] then none
      else if fitsInt64 (withSign negative (ofDigits digits)) then
        some (withSign negative (ofDigits digits))
      else none := by
  unfold leadingInt? withSign
  dsimp only
  cases takeDigits (takeSign (Text.trimStart text)).2 with
  | mk digits rest =>
    cases digits with
    | nil => rfl
    | cons d digits => rfl

theorem int64?_append {negative : Bool} {sign digits : List Char} (hsign : Signed negative sign)
    (hdigits : Digits digits) (hne : digits ≠ [])
    : int64? (sign ++ digits)
        =
      if fitsInt64 (withSign negative (ofDigits digits)) then
        some (withSign negative (ofDigits digits))
      else none := by
  have htake : takeSign (sign ++ digits) = (negative, digits) := by
    apply takeSign_append hsign
    intro c hhead
    have := head_of_digits hdigits hne [] (c := c)
    rw [List.append_nil] at this
    apply ne_sign_of_isDigit (this hhead)
  have hall : digits.all Char.isDigit = true := List.all_eq_true.mpr hdigits
  unfold int64?
  rw [htake]
  simp [hne, hall]

theorem leadingIntOfBytes?_eq (text : List Char)
    : leadingIntOfBytes? text = some (leadingInt? text) := by
  rw [leadingInt?_eq]
  unfold leadingIntOfBytes?
  dsimp only
  generalize Text.trimStart text = text
  obtain ⟨sign, hsign, htext, hsize⟩ := takeSign_cases text
  generalize takeSign text = taken at hsign htext
  obtain ⟨negative, unsigned⟩ := taken
  dsimp only at hsign htext
  have hdigits := takeDigits_digits unsigned
  rw [← hsize]
  conv => lhs; rw [htext]
  rw [Text.splitAt?_of_ascii hsign.ascii, Option.bind_some,
    Text.length_takeWhile_isByteOf fun _ => ascii_of_isDigit]
  dsimp only
  change (if (takeDigits unsigned).1.length = 0 then some none
    else (Text.splitAt? _ (sign.length + (takeDigits unsigned).1.length)).map _) = _
  by_cases hnone : (takeDigits unsigned).1 = []
  . rw [if_pos hnone, if_pos (List.length_eq_zero_iff.mpr hnone)]
  . rw [if_neg hnone, if_neg (mt List.length_eq_zero_iff.mp hnone),
      ← int64?_append hsign hdigits hnone]
    have hascii : Ascii (sign ++ (takeDigits unsigned).1) := by
      rw [Ascii, List.forall_mem_append]
      exact ⟨hsign.ascii, hdigits.ascii⟩
    have hword := Text.splitAt?_of_ascii hascii (takeDigits unsigned).2
    rw [List.append_assoc, ← takeDigits_eq, List.length_append] at hword
    rw [hword]
    rfl

theorem fitsInt64_iff (n : Int) : fitsInt64 n = true ↔ -2 ^ 63 ≤ n ∧ n < 2 ^ 63 := by
  unfold fitsInt64
  rw [Bool.and_eq_true, decide_eq_true_eq, decide_eq_true_eq]
  rfl

theorem leadingInt?_eq_some_iff {text : List Char} {n : Int}
    : leadingInt? text = some n ↔ BeginsWith text n ∧ -2 ^ 63 ≤ n ∧ n < 2 ^ 63 := by
  rw [leadingInt?_eq]
  dsimp only
  constructor
  . intro h
    obtain ⟨blanks, hblanks, htext⟩ := Text.exists_append_trimStart text
    obtain ⟨sign, hsign, hvalue, _⟩ := takeSign_cases (Text.trimStart text)
    generalize takeSign (Text.trimStart text) = taken at h hsign hvalue
    obtain ⟨negative, unsigned⟩ := taken
    dsimp only at h hsign hvalue
    split at h
    . contradiction
    . next hne =>
      split at h
      . next hfits =>
        rw [Option.some.injEq] at h
        rw [h, fitsInt64_iff] at hfits
        refine ⟨⟨blanks, negative, sign, _, _, ?_, hblanks, hsign, takeDigits_digits unsigned, hne,
          takeDigits_breaks unsigned, ?_⟩, hfits⟩
        . rw [← takeDigits_eq, ← hvalue]
          exact htext
        . rw [← ofDigits_eq_placeValue]
          exact h.symm
      . contradiction
  . rintro ⟨⟨blanks, negative, sign, digits, rest, htext, hblanks, hsign, hdigits, hne, hrest, hn⟩,
      hfits⟩
    have htrim : Text.trimStart text = sign ++ (digits ++ rest) := by
      rw [htext, Text.trimStart_append hblanks, trimStart_number hsign hdigits hne]
    have hsigned : takeSign (sign ++ (digits ++ rest)) = (negative, digits ++ rest) := by
      apply takeSign_append hsign
      intro c hhead
      apply ne_sign_of_isDigit (head_of_digits hdigits hne rest hhead)
    rw [htrim, hsigned]
    dsimp only
    rw [takeDigits_append hdigits, takeDigits_of_breaks hrest, List.append_nil, if_neg hne,
      ofDigits_eq_placeValue, ← hn, if_pos ((fitsInt64_iff n).mpr hfits)]

theorem leadingCount?_eq_some_iff {text : List Char} {count : Nat}
    : leadingCount? text = some count ↔ BeginsWith text count ∧ count < 2 ^ 32 := by
  have hleading : leadingCount? text = some count
      ↔ leadingInt? text = some (count : Int) ∧ count < 2 ^ 32 := by
    unfold leadingCount?
    split
    . next n hn =>
      rw [hn]
      change (if n < 2 ^ 32 then some n else none) = some count ↔ some (n : Int) = some ↑count ∧ _
      rw [Option.some.injEq, Int.natCast_inj]
      split
      . rw [Option.some.injEq]
        omega
      . simp
        omega
    . next hother =>
      constructor
      . intro h
        contradiction
      . rintro ⟨hint, _⟩
        exact absurd hint (hother count)
  rw [hleading, leadingInt?_eq_some_iff]
  constructor
  . rintro ⟨⟨hbegins, _⟩, hlt⟩
    exact ⟨hbegins, hlt⟩
  . rintro ⟨hbegins, hlt⟩
    refine ⟨⟨hbegins, ?_⟩, hlt⟩
    omega

/--
A text is read as a whole number just if it begins with one that 64 bits hold, whatever characters
are behind it. A sequence that is to be repeated is played as often as that number says, if 32 bits
hold it without a sign, and else without end.
-/
theorem leadingInt?_reads (text : List Char) (index : Nat) (node : Markup.Node)
    : leadingIntOfBytes? text = some (leadingInt? text)
        ∧ (∀ n, leadingInt? text = some n ↔ BeginsWith text n ∧ -2 ^ 63 ≤ n ∧ n < 2 ^ 63)
        ∧ (Script.sequenceOf index node).repeats = (node.attribute? "repeat").isSome
        ∧ ∀ count, (Script.sequenceOf index node).count = some count
            ↔ ∃ value, node.attribute? "repeat" = some value
              ∧ BeginsWith value.toList count
              ∧ count ≤ 2 ^ 32 - 1 := by
  refine ⟨leadingIntOfBytes?_eq text, ?_, rfl, ?_⟩
  . intro n
    apply leadingInt?_eq_some_iff
  . intro count
    have hcount : (Script.sequenceOf index node).count
        = (node.attribute? "repeat").bind fun value => leadingCount? value.toList := rfl
    rw [hcount, Option.bind_eq_some_iff]
    apply exists_congr
    intro value
    rw [leadingCount?_eq_some_iff, Nat.le_sub_one_iff_lt (by decide)]

end Decimal

end Narrative
