import Narrative.Decimal.Word
import Narrative.Instant.Basic
import Narrative.Text.Blank

/-!
This module contains the reading of instants, in the form of the internet timestamp with an offset,
and in the lenient forms of a date alone and of a date and a time without an offset.
-/

namespace Narrative.Instant

def fixedNumber (width : Nat) (cs : List Char) : Option (Nat × List Char) :=
  let digits := cs.take width
  if digits.length = width ∧ digits.all Char.isDigit then
    some (Decimal.ofDigits digits, cs.drop width)
  else
    none

def shortNumber (width : Nat) (cs : List Char) : Option (Nat × List Char) :=
  match (cs.take width).takeWhile Char.isDigit with
  | [] => none
  | digits => some (Decimal.ofDigits digits, cs.drop digits.length)

def expect (c : Char) : List Char → Option (List Char)
  | [] => none
  | d :: cs => if d = c then some cs else none

def takeNanos : List Char → Option ({ nanos : Nat // nanos < 1000000000 } × List Char)
  | '.' :: cs =>
    match Decimal.takeDigits cs with
    | ([], _) => none
    | (digits, rest) =>
      -- digits after the ninth do not count
      let nine := digits.take 9 ++ List.replicate (9 - digits.length) '0'
      some (⟨Decimal.ofDigits nine % 1000000000, Nat.mod_lt _ (by decide)⟩, rest)
  | cs => some (⟨0, by decide⟩, cs)

def takeOffset : List Char → Option (Int × List Char)
  | [] => none
  | sign :: cs => do
    if sign = 'Z' ∨ sign = 'z' then
      return (0, cs)
    let direction : Int ←
      if sign = '+' then some 1
      else if sign = '-' ∨ sign = '−' then some (-1)
      else none
    let (hours, cs) ← fixedNumber 2 cs
    let cs ← expect ':' cs
    let (minutes, cs) ← fixedNumber 2 cs
    if hours ≤ 23 ∧ minutes ≤ 59 then
      some (direction * (hours * 3600 + minutes * 60), cs)
    else
      none

def isTimeOfDay (hour minute second : Nat) : Bool :=
  hour ≤ 23 && minute ≤ 59 && second ≤ 60

def timestamp? (cs : List Char) : Option Instant := do
  let (year, cs) ← fixedNumber 4 cs
  let cs ← expect '-' cs
  let (month, cs) ← fixedNumber 2 cs
  let cs ← expect '-' cs
  let (day, cs) ← fixedNumber 2 cs
  let cs ← (expect 'T' cs <|> expect 't' cs <|> expect ' ' cs)
  let (hour, cs) ← fixedNumber 2 cs
  let cs ← expect ':' cs
  let (minute, cs) ← fixedNumber 2 cs
  let cs ← expect ':' cs
  let (second, cs) ← fixedNumber 2 cs
  let (⟨nanos, nanos_lt⟩, cs) ← takeNanos cs
  let (offset, cs) ← takeOffset cs
  let civil : CivilDay := ⟨year, month, day⟩
  if civil.isValid ∧ isTimeOfDay hour minute second ∧ cs = [] then
    let t := ofCivil civil hour minute second nanos nanos_lt
    some ⟨t.seconds - offset, t.nanos, t.nanos_lt⟩
  else
    none

def takeYear (cs : List Char) : Option (Int × List Char) :=
  match Text.trimStart cs with
  | '-' :: cs => (shortNumber cs.length cs).map fun (year, rest) => (-(year : Int), rest)
  | '+' :: cs => (shortNumber cs.length cs).map fun (year, rest) => ((year : Int), rest)
  | cs => (shortNumber 4 cs).map fun (year, rest) => ((year : Int), rest)

def takePair (cs : List Char) : Option (Nat × List Char) :=
  shortNumber 2 (Text.trimStart cs)

def takeDate (cs : List Char) : Option (CivilDay × List Char) := do
  let (year, cs) ← takeYear cs
  let cs ← expect '-' cs
  let (month, cs) ← takePair cs
  let cs ← expect '-' cs
  let (day, cs) ← takePair cs
  let civil : CivilDay := ⟨year, month, day⟩
  if civil.isValid then some (civil, cs) else none

def dateTime? (cs : List Char) : Option Instant := do
  let (civil, cs) ← takeDate cs
  let cs := (expect 'T' cs).getD cs
  let (hour, cs) ← takePair cs
  let cs ← expect ':' cs
  let (minute, cs) ← takePair cs
  let cs ← expect ':' cs
  let (second, cs) ← takePair cs
  if isTimeOfDay hour minute second ∧ cs = [] then
    some (ofCivil civil hour minute second 0 (by decide))
  else
    none

def date? (cs : List Char) : Option Instant :=
  match takeDate cs with
  | some (civil, []) => some (ofCivil civil 0 0 0 0 (by decide))
  | _ => none

def ofString? (text : String) : Option Instant :=
  let cs := Text.trim text.toList
  timestamp? cs <|> dateTime? cs <|> date? cs

end Narrative.Instant
