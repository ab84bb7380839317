/-!
This module contains the division of a text into the segments around a delimiter.
-/

namespace Narrative.Text

def segments (delimiter : List Char) (text : List Char) : List (List Char) :=
  go 0 [] text
where
  go (skip : Nat) (read : List Char) : List Char → List (List Char)
    | [] => [read.reverse]
    | c :: cs =>
      match skip with
      -- `c` still belongs to the last occurrence
      | skip + 1 => go skip read cs
      | 0 =>
        if delimiter.isPrefixOf (c :: cs) then
          read.reverse :: go (delimiter.length - 1) [] cs
        else
          go 0 (c :: read) cs

end Narrative.Text
