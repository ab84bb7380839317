import Narrative.Markup.Alphabet

/-!
This module contains the tokens of a document: its tags, and the text between them.
-/

namespace Narrative.Markup

inductive Token where
  | opening (name : QName) (attributes : List (QName × List Char)) (isEmpty : Bool)
  | closing (name : QName)
  | text (cs : List Char)
  | data (cs : List Char)

namespace Token

def takeAttribute (cs : List Char) : Option ((QName × List Char) × List Char) := do
  let (name, cs) ← takeQName cs
  let cs ← expect '=' (dropSpaces cs)
  match dropSpaces cs with
  | [] => none
  | quote :: cs =>
    if quote = '"' ∨ quote = '\'' then
      let isValue (c : Char) : Bool := c != quote && c != '<'
      let rest ← expect quote (cs.dropWhile isValue)
      some ((name, cs.takeWhile isValue), rest)
    else
      none

def takeAttributes (fuel : Nat) (cs : List Char) :
    Option (List (QName × List Char) × Bool × List Char) :=
  match fuel with
  | 0 => none
  | fuel + 1 =>
    match dropSpaces cs with
    | '>' :: rest => some ([], false, rest)
    | '/' :: '>' :: rest => some ([], true, rest)
    | rest => do
      if (cs.head?.map isSpace).getD false then
        let (first, rest) ← takeAttribute rest
        let (others, isEmpty, rest) ← takeAttributes fuel rest
        some (first :: others, isEmpty, rest)
      else
        none

def dropComment (cs : List Char) : Option (List Char) := do
  let (comment, rest) ← takeUntil ['-', '-', '>'] cs
  if occursIn ['-', '-'] comment || comment.getLast? == some '-' then none else some rest

def dropInstruction (cs : List Char) : Option (List Char) :=
  if ['x', 'm', 'l', ' '].isPrefixOf cs then
    none
  else do
    let (_, rest) ← takeName cs
    let (_, rest) ← takeUntil ['?', '>'] rest
    some rest

def dataOpening : List Char :=
  ['[', 'C', 'D', 'A', 'T', 'A', '[']

def scan (cs : List Char) : Option (Option Token × List Char) :=
  match cs with
  | '<' :: '!' :: '-' :: '-' :: cs => (dropComment cs).map fun rest => (none, rest)
  | '<' :: '!' :: cs => do
    let cs ← expectAll dataOpening cs
    let (cs, rest) ← takeUntil [']', ']', '>'] cs
    some (some (data cs), rest)
  | '<' :: '?' :: cs => (dropInstruction cs).map fun rest => (none, rest)
  | '<' :: '/' :: cs => do
    let (name, rest) ← takeQName cs
    let rest ← expect '>' (dropSpaces rest)
    some (some (closing name), rest)
  | '<' :: cs => do
    let (name, rest) ← takeQName cs
    let (attributes, isEmpty, rest) ← takeAttributes cs.length rest
    some (some (opening name attributes isEmpty), rest)
  | cs =>
    let text := cs.takeWhile (· != '<')
    if occursIn [']', ']', '>'] text then none
    else some (some (Token.text text), cs.dropWhile (· != '<'))

def scanAll (cs : List Char) : Option (List Token) :=
  go cs.length [] cs
where
  go (fuel : Nat) (tokens : List Token) (cs : List Char) : Option (List Token) :=
    match fuel, cs with
    | _, [] => some tokens.reverse
    | 0, _ => none
    | fuel + 1, cs =>
      match scan cs with
      | none => none
      | some (none, rest) => go fuel tokens rest
      | some (some token, rest) => go fuel (token :: tokens) rest

def dropGap (cs : List Char) : Option (List Char) :=
  if (cs.head?.map isSpace).getD true || ['?', '>'].isPrefixOf cs then some (dropSpaces cs) else none

def dropPart (name cs : List Char) : Option (List Char) :=
  if name.isPrefixOf cs then (takeAttribute cs).bind fun (_, rest) => dropGap rest else some cs

def dropDeclaration (cs : List Char) : Option (List Char) :=
  match expectAll ['<', '?', 'x', 'm', 'l', ' '] cs with
  | none => some cs
  | some cs => do
    let cs := dropSpaces cs
    if "version".toList.isPrefixOf cs then
      let (_, cs) ← takeAttribute cs
      let cs ← dropGap cs
      let cs ← dropPart "encoding".toList cs
      let cs ← if "standalone".toList.isPrefixOf cs then (takeAttribute cs).map (·.2) else some cs
      expectAll ['?', '>'] (dropSpaces cs)
    else
      none

end Token

end Narrative.Markup
