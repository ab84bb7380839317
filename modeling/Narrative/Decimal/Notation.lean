import Narrative.Decimal.Shortest

/-!
This module contains the two notations of numbers: one in which every number is written by its place
values alone, and one that has an exponent for what is very large or very small.
-/

namespace Narrative.Decimal

def significant (d : Scaled) : List Char × Int :=
  let digits := Nat.toDigits 10 d.digits
  let kept := (digits.reverse.dropWhile (· == '0')).reverse
  if kept.isEmpty then (['0'], 1) else (kept, digits.length + d.scale)

def placed (digits : List Char) (before : Int) (tail : List Char) : List Char :=
  if before ≤ 0 then
    '0' :: '.' :: List.replicate (-before).toNat '0' ++ digits
  else if digits.length ≤ before.toNat then
    digits ++ List.replicate (before.toNat - digits.length) '0' ++ tail
  else
    digits.take before.toNat ++ '.' :: digits.drop before.toNat

def writtenSign (x : Float) : List Char :=
  if signBit x then ['-'] else []

def positional (x : Float) : String :=
  match Binary.ofFloat? x with
  | none => if x.isNaN then "NaN" else String.ofList (writtenSign x ++ ['i', 'n', 'f'])
  | some b =>
    let (digits, before) := significant (b.shortest .up)
    String.ofList (writtenSign x ++ placed digits before [])

def pointed (x : Float) : String :=
  match Binary.ofFloat? x with
  | none => "null"
  | some b =>
    let (digits, before) := significant (b.shortest .toEven)
    let written :=
      if -5 < before ∧ before ≤ 16 then
        placed digits before ['.', '0']
      else
        let mantissa := match digits with
          | [] => []
          | [d] => [d]
          | d :: ds => d :: '.' :: ds
        mantissa ++ 'e' :: (toString (before - 1)).toList
    String.ofList (writtenSign x ++ written)

end Narrative.Decimal
