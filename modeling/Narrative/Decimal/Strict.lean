import Narrative.Decimal.Word
import Narrative.Text.Case

/-!
This module contains the strict reading of numbers: all of the text has to be the number.
-/

namespace Narrative.Decimal

def float? (text : List Char) : Option Float :=
  match Word.scan text with
  | some (word, []) => some word.value
  | _ =>
    let (negative, cs) := takeSign text
    let special : Option Float :=
      match cs.map Char.toLower with
      | ['i', 'n', 'f'] => some (1.0 / 0.0)
      | ['i', 'n', 'f', 'i', 'n', 'i', 't', 'y'] => some (1.0 / 0.0)
      | ['n', 'a', 'n'] => some (0.0 / 0.0)
      | _ => none
    special.map fun x => if negative then -x else x

def count64? (text : List Char) : Option Nat :=
  let digits := match text with
    | '+' :: cs => cs
    | cs => cs
  if digits.isEmpty || !digits.all Char.isDigit then none
  else if ofDigits digits < Nat.pow 2 64 then some (ofDigits digits)
  else none

end Narrative.Decimal
