import Narrative.Text.Segments

/-!
This module contains the extension of a path whose components are separated by `/`.
-/

namespace Narrative.Text

def fileName? (path : List Char) : Option (List Char) :=
  match ((segments ['/'] path).filter fun part => part != [] && part != ['.']).getLast? with
  | none => none
  | some ['.', '.'] => none
  | some part => some part

def extension? (path : List Char) : Option (List Char) :=
  match fileName? path with
  | none => none
  | some name =>
    let after := (name.reverse.takeWhile (· != '.')).reverse
    if after.length + 1 < name.length then some after else none

end Narrative.Text
