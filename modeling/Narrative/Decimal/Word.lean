/-!
This module contains the decimal words that are read as numbers: an optional sign, digits with at
most one point among them, and an optional exponent.
-/

namespace Narrative.Decimal

def ofDigits (digits : List Char) : Nat :=
  digits.foldl (fun n c => 10 * n + (c.toNat - '0'.toNat)) 0

def nearestFloat (m : Nat) (scale : Int) : Float :=
  let magnitude := (Nat.toDigits 10 m).length + scale
  if m = 0 ∨ magnitude < -330 then 0.0
  else if magnitude > 310 then 1.0 / 0.0
  else Float.ofScientific m (scale < 0) scale.natAbs

structure Word where
  negative : Bool
  whole : List Char
  fraction : List Char
  exponent : Int
deriving Repr, DecidableEq

def takeDigits (cs : List Char) : List Char × List Char :=
  (cs.takeWhile Char.isDigit, cs.dropWhile Char.isDigit)

def takeSign : List Char → Bool × List Char
  | '-' :: cs => (true, cs)
  | '+' :: cs => (false, cs)
  | cs => (false, cs)

def takeFraction : List Char → List Char × List Char
  | '.' :: cs => takeDigits cs
  | cs => ([], cs)

def takeExponent : List Char → Int × List Char
  | [] => (0, [])
  | e :: cs =>
    if e = 'e' ∨ e = 'E' then
      let (negative, rest) := takeSign cs
      match takeDigits rest with
      | ([], _) => (0, e :: cs)
      | (digits, rest) =>
        (if negative then -(ofDigits digits : Int) else (ofDigits digits : Int), rest)
    else
      (0, e :: cs)

def Word.scan (cs : List Char) : Option (Word × List Char) :=
  let (negative, cs) := takeSign cs
  let (whole, cs) := takeDigits cs
  let (fraction, cs) := takeFraction cs
  if whole.isEmpty && fraction.isEmpty then
    none
  else
    let (exponent, cs) := takeExponent cs
    some (⟨negative, whole, fraction, exponent⟩, cs)

def Word.value (w : Word) : Float :=
  let magnitude := nearestFloat (ofDigits (w.whole ++ w.fraction)) (w.exponent - w.fraction.length)
  if w.negative then -magnitude else magnitude

end Narrative.Decimal
