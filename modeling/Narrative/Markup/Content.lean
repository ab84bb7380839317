import Narrative.Decimal.Word
import Narrative.Markup.Alphabet

/-!
This module contains what the characters between tags and within the values of attributes stand for:
references are replaced, and the ends of lines are made alike.
-/

namespace Narrative.Markup

def ofHexDigits (digits : List Char) : Nat :=
  digits.foldl (fun n c => 16 * n + (if c.isDigit then c.toNat - 48 else c.toLower.toNat - 87)) 0

def isHexDigit (c : Char) : Bool :=
  c.isDigit || ('a' ≤ c && c ≤ 'f') || ('A' ≤ c && c ≤ 'F')

def numbered? (n : Nat) : Option Char :=
  let c := if n.isValidChar then Char.ofNat n else '\uFFFD'
  if n < Nat.pow 2 32 ∧ isXmlChar c then some c else none

def takeNumber (cs : List Char) : Option (Char × List Char) :=
  let (digits, n, rest) :=
    match cs with
    | 'x' :: cs =>
      let digits := cs.takeWhile isHexDigit
      (digits, ofHexDigits digits, cs.dropWhile isHexDigit)
    | cs =>
      let digits := cs.takeWhile Char.isDigit
      (digits, Decimal.ofDigits digits, cs.dropWhile Char.isDigit)
  if digits.isEmpty then none else (numbered? n).map fun c => (c, rest)

def named? (name : List Char) : Option Char :=
  match String.ofList name with
  | "quot" => some '"'
  | "amp" => some '&'
  | "apos" => some '\''
  | "lt" => some '<'
  | "gt" => some '>'
  | _ => none

def takeReference (cs : List Char) : Option (Char × List Char) := do
  let (c, rest) ← match cs with
    | '#' :: cs => takeNumber cs
    | cs => do
      let (name, rest) ← takeName cs
      let c ← named? name
      some (c, rest)
  let rest ← expect ';' rest
  some (c, rest)

def pushLine (read : List Char) (c : Char) (atEnd : Bool) : List Char :=
  -- a carriage return becomes a line feed as soon as it is known what follows it
  let last := if atEnd && c == '\r' then '\n' else c
  match read with
  | '\r' :: read => if c == '\n' then '\n' :: read else last :: '\n' :: read
  | read => last :: read

def textOf (cs : List Char) : Option (List Char) :=
  go cs.length [] false cs
where
  go (fuel : Nat) (read : List Char) (verbatim : Bool) (cs : List Char) : Option (List Char) :=
    match fuel, cs with
    | _, [] => some read.reverse
    | 0, _ => none
    | fuel + 1, '&' :: cs =>
      match takeReference cs with
      | none => none
      | some (c, rest) => go fuel (c :: read) true rest
    | fuel + 1, c :: cs =>
      -- what follows a reference stays as it is, whatever the reference stands for
      go fuel (if verbatim then c :: read else pushLine read c cs.isEmpty) false cs

def dataOf (cs : List Char) : List Char :=
  go [] cs
where
  go (read : List Char) : List Char → List Char
    | [] => read.reverse
    | c :: cs => go (pushLine read c cs.isEmpty) cs

def valueOf (cs : List Char) : Option (List Char) :=
  go cs.length [] cs
where
  go (fuel : Nat) (read : List Char) (cs : List Char) : Option (List Char) :=
    match fuel, cs with
    | _, [] => some read.reverse
    | 0, _ => none
    | fuel + 1, '&' :: cs =>
      match takeReference cs with
      | none => none
      | some (c, rest) => go fuel (c :: read) rest
    | fuel + 1, '\r' :: '\n' :: cs => go fuel read ('\n' :: cs)
    | fuel + 1, c :: cs => go fuel ((if isSpace c then ' ' else c) :: read) cs

end Narrative.Markup
