/-!
This module contains the exact value of a binary64 number as a whole number times a power of two,
and its rounding to a whole number.
-/

namespace Narrative.Decimal

/--
The size of a finite binary64 number, which is `mantissa * 2 ^ exponent`.
-/
structure Binary where
  mantissa : Nat
  exponent : Int
deriving Repr, DecidableEq

def Binary.ofFloat? (x : Float) : Option Binary :=
  let bits := x.toBits.toNat
  let field : Nat := bits / Nat.pow 2 52 % Nat.pow 2 11
  let low : Nat := bits % Nat.pow 2 52
  if field = 2047 then none
  else if field = 0 then some ⟨low, -1074⟩
  else some ⟨Nat.pow 2 52 + low, (field : Int) - 1075⟩

def signBit (x : Float) : Bool :=
  x.toBits.toNat / Nat.pow 2 63 % 2 == 1

def Binary.round (b : Binary) : Nat :=
  match b.exponent with
  | .ofNat k => b.mantissa * Nat.pow 2 k
  | .negSucc k => (b.mantissa + Nat.pow 2 k) / Nat.pow 2 (k + 1)

def roundSize (x : Float) : Nat :=
  match Binary.ofFloat? x with
  | some b => min b.round (Nat.pow 2 63 - 1)
  | none => Nat.pow 2 63 - 1

end Narrative.Decimal
