/-!
This module contains JSON values, which are what event lines are made of, and their text on one line
without white space. How a number that is not whole is spelled is up to the caller.
-/

namespace Narrative

inductive Json where
  | null
  | bool (b : Bool)
  | int (n : Int)
  | num (x : Float)
  | str (s : String)
  | arr (items : List Json)
  | obj (fields : List (String × Json))
deriving Inhabited

namespace Json

def ofOption (f : α → Json) : Option α → Json
  | none => null
  | some a => f a

def record (fields : List (String × Json)) : Json :=
  obj (fields.mergeSort fun a b => a.1 ≤ b.1)

def hexDigit (n : Nat) : Char :=
  (Nat.toDigits 16 n).getLastD '0'

def escape (c : Char) : List Char :=
  match c with
  | '"' => ['\\', '"']
  | '\\' => ['\\', '\\']
  | '\x08' => ['\\', 'b']
  | '\x0c' => ['\\', 'f']
  | '\n' => ['\\', 'n']
  | '\r' => ['\\', 'r']
  | '\t' => ['\\', 't']
  | c =>
    if c.toNat < 0x20 then
      ['\\', 'u', '0', '0', hexDigit (c.toNat / 16), hexDigit (c.toNat % 16)]
    else
      [c]

def quote (s : String) : String :=
  String.ofList ('"' :: s.toList.flatMap escape ++ ['"'])

mutual

def render (number : Float → String) : Json → String
  | null => "null"
  | bool b => if b then "true" else "false"
  | int n => toString n
  | num x => number x
  | str s => quote s
  | arr items => "[" ++ ",".intercalate (renderItems number items) ++ "]"
  | obj fields => "\x7b" ++ ",".intercalate (renderFields number fields) ++ "\x7d"

def renderItems (number : Float → String) : List Json → List String
  | [] => []
  | item :: items => render number item :: renderItems number items

def renderFields (number : Float → String) : List (String × Json) → List String
  | [] => []
  | (key, value) :: fields =>
    (quote key ++ ":" ++ render number value) :: renderFields number fields

end

end Json

end Narrative
