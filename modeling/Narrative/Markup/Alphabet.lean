/-!
This module contains the classes of characters of XML, and the names made of them.
-/

namespace Narrative.Markup

def isSpace (c : Char) : Bool :=
  c == ' ' || c == '\t' || c == '\n' || c == '\r'

def isXmlChar (c : Char) : Bool :=
  isSpace c || (0x20 ≤ c.toNat && c.toNat != 0xFFFE && c.toNat != 0xFFFF)

def nameStartRanges : List (Nat × Nat) :=
  [(0xC0, 0xD6), (0xD8, 0xF6), (0xF8, 0x2FF), (0x370, 0x37D), (0x37F, 0x1FFF), (0x200C, 0x200D),
    (0x2070, 0x218F), (0x2C00, 0x2FEF), (0x3001, 0xD7FF), (0xF900, 0xFDCF), (0xFDF0, 0xFFFD),
    (0x10000, 0xEFFFF)]

def isNameStart (c : Char) : Bool :=
  c.isAlpha || c == '_' || nameStartRanges.any fun (low, high) => low ≤ c.toNat && c.toNat ≤ high

def isNameChar (c : Char) : Bool :=
  isNameStart c || c.isDigit || c == '-' || c == '.' || c.toNat == 0xB7
    || (0x300 ≤ c.toNat && c.toNat ≤ 0x36F) || (0x203F ≤ c.toNat && c.toNat ≤ 0x2040)

structure QName where
  qualifier : List Char
  name : List Char
deriving Repr, DecidableEq

def startsWell (part : List Char) : Bool :=
  match part with
  | [] => true
  | c :: _ => isNameStart c

def takeQName (cs : List Char) : Option (QName × List Char) :=
  let first := cs.takeWhile isNameChar
  let (name, rest) : QName × List Char :=
    match cs.dropWhile isNameChar with
    | ':' :: rest => (⟨first, rest.takeWhile isNameChar⟩, rest.dropWhile isNameChar)
    | rest => (⟨[], first⟩, rest)
  if name.name.isEmpty || !startsWell name.qualifier || !startsWell name.name
      || rest.head? == some ':' then
    none
  else
    some (name, rest)

def takeName (cs : List Char) : Option (List Char × List Char) :=
  match cs with
  | [] => none
  | c :: rest =>
    if isNameStart c || c == ':' then
      let more (c : Char) : Bool := isNameChar c || c == ':'
      some (c :: rest.takeWhile more, rest.dropWhile more)
    else
      none

def dropSpaces (cs : List Char) : List Char :=
  cs.dropWhile isSpace

def expect (c : Char) : List Char → Option (List Char)
  | [] => none
  | d :: cs => if d = c then some cs else none

def expectAll (start cs : List Char) : Option (List Char) :=
  if start.isPrefixOf cs then some (cs.drop start.length) else none

def takeUntil (stop cs : List Char) : Option (List Char × List Char) :=
  go [] cs
where
  go (read : List Char) : List Char → Option (List Char × List Char)
    | [] => none
    | c :: cs =>
      if stop.isPrefixOf (c :: cs) then some (read.reverse, (c :: cs).drop stop.length)
      else go (c :: read) cs

def occursIn (part cs : List Char) : Bool :=
  (takeUntil part cs).isSome

end Narrative.Markup
