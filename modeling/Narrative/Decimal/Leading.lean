import Narrative.Decimal.Word
import Narrative.Text.Blank

/-!
This module contains the lenient reading of numbers: what counts is the number that a text begins
with, and any text may follow it.
-/

namespace Narrative.Decimal

def fitsInt64 (n : Int) : Bool :=
  -Int.pow 2 63 ≤ n && n < Int.pow 2 63

def leadingInt? (text : List Char) : Option Int :=
  let (negative, cs) := takeSign (Text.trimStart text)
  match takeDigits cs with
  | ([], _) => none
  | (digits, _) =>
    let n : Int := if negative then -(ofDigits digits : Int) else ofDigits digits
    if fitsInt64 n then some n else none

def leadingCount? (text : List Char) : Option Nat :=
  match leadingInt? text with
  | some (.ofNat n) => if n < Nat.pow 2 32 then some n else none
  | _ => none

def leadingFloat? (text : List Char) : Option Float :=
  match Word.scan (Text.trimStart text) with
  | none => none
  | some (word, _) => if word.value.isFinite then some word.value else none

end Narrative.Decimal
