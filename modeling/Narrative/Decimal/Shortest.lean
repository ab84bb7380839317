import Narrative.Decimal.Binary

/-!
This module contains the choice of the decimal digits that a binary64 number is written with: as few
as read back as the number, and among these the nearest to it.
-/

namespace Narrative.Decimal

/--
The decimal number `digits * 10 ^ scale`.
-/
structure Scaled where
  digits : Nat
  scale : Int
deriving Repr, DecidableEq

inductive Tie where
  | toEven
  | up
deriving Repr, DecidableEq

def compareScaled (a : Nat) (i : Int) (b : Nat) (j : Int) : Ordering :=
  compare (a * Nat.pow 10 i.toNat * Nat.pow 2 (-j).toNat)
    (b * Nat.pow 2 j.toNat * Nat.pow 10 (-i).toNat)

namespace Binary

/--
Whether a decimal number is nearer to `b` than to any other size. Halfway to a neighbour it counts as
near if the mantissa is even. Below a power of two the neighbour is half as far away.
-/
def readsBack (b : Binary) (d : Scaled) : Bool :=
  let narrow := b.mantissa == Nat.pow 2 52 && b.exponent > -1074
  let low := if narrow then 4 * b.mantissa - 1 else 4 * b.mantissa - 2
  let high := 4 * b.mantissa + 2
  let atLow := compareScaled d.digits d.scale low (b.exponent - 2)
  let atHigh := compareScaled d.digits d.scale high (b.exponent - 2)
  let even := b.mantissa % 2 == 0
  (atLow == .gt || (even && atLow == .eq)) && (atHigh == .lt || (even && atHigh == .eq))

def digitsBeforePoint (b : Binary) : Int :=
  let estimate : Int :=
    ((Nat.toDigits 10 (b.mantissa * Nat.pow 2 b.exponent.toNat)).length : Int)
      - (Nat.toDigits 10 (Nat.pow 2 (-b.exponent).toNat)).length
  if compareScaled 1 estimate b.mantissa b.exponent == .gt then estimate else estimate + 1

def floorAt (b : Binary) (scale : Int) : Nat :=
  b.mantissa * Nat.pow 2 b.exponent.toNat * Nat.pow 10 (-scale).toNat
    / (Nat.pow 2 (-b.exponent).toNat * Nat.pow 10 scale.toNat)

def withDigits? (b : Binary) (tie : Tie) (count : Nat) : Option Scaled :=
  let scale := b.digitsBeforePoint - count
  let below : Scaled := ⟨b.floorAt scale, scale⟩
  let above : Scaled := ⟨b.floorAt scale + 1, scale⟩
  match b.readsBack below, b.readsBack above with
  | false, false => none
  | true, false => some below
  | false, true => some above
  | true, true =>
    match compareScaled (2 * below.digits + 1) scale (2 * b.mantissa) b.exponent with
    | .gt => some below
    | .lt => some above
    | .eq =>
      match tie with
      | .up => some above
      | .toEven => if below.digits % 2 == 0 then some below else some above

def exact (b : Binary) : Scaled :=
  match b.exponent with
  | .ofNat k => ⟨b.mantissa * Nat.pow 2 k, 0⟩
  | .negSucc k => ⟨b.mantissa * Nat.pow 5 (k + 1), -(k + 1 : Nat)⟩

def shortest (b : Binary) (tie : Tie) : Scaled :=
  if b.mantissa = 0 then ⟨0, 0⟩
  else ((List.range 17).findSome? fun n => b.withDigits? tie (n + 1)).getD b.exact

end Binary

end Narrative.Decimal
