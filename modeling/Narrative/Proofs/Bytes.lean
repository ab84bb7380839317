import Narrative.Text.Blank

/-!
This module contains texts as they are stored, byte by byte in UTF-8. A text can be divided only
between two characters, and bytes of ASCII characters stand for themselves.
-/

namespace Narrative.Text

def bytes (cs : List Char) : List UInt8 :=
  cs.flatMap String.utf8EncodeChar

/--
A text, divided behind so many of its bytes. Inside a character there is no place to divide it.
-/
def splitAt? : List Char → (size : Nat) → Option (List Char × List Char)
  | cs, 0 => some ([], cs)
  | [], _ + 1 => none
  | c :: cs, size + 1 =>
    if c.utf8Size ≤ size + 1 then
      (splitAt? cs (size + 1 - c.utf8Size)).map fun (before, after) => (c :: before, after)
    else
      none

/--
The byte is that of an ASCII character of the kind.
-/
def isByteOf (kind : Char → Bool) (byte : UInt8) : Bool :=
  byte.toNat < 128 && kind (Char.ofNat byte.toNat)

def Ascii (cs : List Char) : Prop :=
  ∀ c ∈ cs, c.toNat < 128

variable {kind : Char → Bool}

theorem bytes_cons (c : Char) (cs : List Char)
    : bytes (c :: cs) = String.utf8EncodeChar c ++ bytes cs := by
  simp [bytes]

theorem length_bytes_cons (c : Char) (cs : List Char)
    : (bytes (c :: cs)).length = c.utf8Size + (bytes cs).length := by
  simp [bytes_cons]

theorem splitAt?_length_bytes (before after : List Char)
    : splitAt? (before ++ after) (bytes before).length = some (before, after) := by
  induction before with
  | nil => cases after <;> rfl
  | cons c before ih =>
    have hpos := c.utf8Size_pos
    obtain ⟨size, hsize⟩ : ∃ size, c.utf8Size + (bytes before).length = size + 1 :=
      Nat.exists_eq_succ_of_ne_zero (by omega)
    have hrest : size + 1 - c.utf8Size = (bytes before).length := by omega
    rw [length_bytes_cons, hsize, List.cons_append, splitAt?, if_pos (by omega), hrest, ih]
    rfl

theorem encodeChar_of_ascii {c : Char} (h : c.toNat < 128)
    : String.utf8EncodeChar c = [UInt8.ofNat c.toNat] := by
  have hsmall : c.val.toNat ≤ 127 := Nat.le_of_lt_succ h
  unfold String.utf8EncodeChar
  dsimp only
  rw [if_pos hsmall]
  rfl

theorem encodeChar_of_not_ascii {c : Char} (h : ¬c.toNat < 128)
    : ∃ byte rest, String.utf8EncodeChar c = byte :: rest ∧ ¬byte.toNat < 128 := by
  have hlarge : ¬c.val.toNat ≤ 127 := fun hsmall => h (Nat.lt_succ_of_le hsmall)
  unfold String.utf8EncodeChar
  dsimp only
  rw [if_neg hlarge]
  split
  . refine ⟨_, _, rfl, ?_⟩
    rw [UInt8.toNat_ofNat']
    omega
  . split
    . refine ⟨_, _, rfl, ?_⟩
      rw [UInt8.toNat_ofNat']
      omega
    . refine ⟨_, _, rfl, ?_⟩
      rw [UInt8.toNat_ofNat']
      omega

theorem length_bytes_of_ascii {cs : List Char} (h : Ascii cs) : (bytes cs).length = cs.length := by
  induction cs with
  | nil => rfl
  | cons c cs ih =>
    rw [Ascii, List.forall_mem_cons] at h
    rw [bytes_cons, encodeChar_of_ascii h.1, List.singleton_append, List.length_cons, ih h.2,
      List.length_cons]

theorem splitAt?_of_ascii {before : List Char} (h : Ascii before) (after : List Char)
    : splitAt? (before ++ after) before.length = some (before, after) := by
  rw [← length_bytes_of_ascii h]
  apply splitAt?_length_bytes

/--
Counted in bytes or in characters, a run of ASCII characters of a kind has the same length.
-/
theorem length_takeWhile_isByteOf (hkind : ∀ c, kind c = true → c.toNat < 128) (cs : List Char)
    : ((bytes cs).takeWhile (isByteOf kind)).length = (cs.takeWhile kind).length := by
  induction cs with
  | nil => rfl
  | cons c cs ih =>
    by_cases hascii : c.toNat < 128
    . have hbyte : (UInt8.ofNat c.toNat).toNat = c.toNat := by
        rw [UInt8.toNat_ofNat']
        omega
      have hsame : isByteOf kind (UInt8.ofNat c.toNat) = kind c := by
        simp [isByteOf, hbyte, hascii]
      rw [bytes_cons, encodeChar_of_ascii hascii, List.singleton_append, List.takeWhile_cons,
        List.takeWhile_cons, hsame]
      cases kind c with
      | true => simpa using ih
      | false => rfl
    . have hother : kind c = false := by
        rw [Bool.eq_false_iff]
        exact fun hc => hascii (hkind c hc)
      obtain ⟨byte, rest, hbytes, hlarge⟩ := encodeChar_of_not_ascii hascii
      rw [bytes_cons, hbytes, List.cons_append, List.takeWhile_cons, List.takeWhile_cons, hother]
      simp [isByteOf, hlarge]

end Narrative.Text
