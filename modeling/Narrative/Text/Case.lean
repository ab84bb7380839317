/-!
This module contains the comparison of names that ignores the case of the letters `A` to `Z`. Other
letters are told apart by case.
-/

namespace Narrative.Text

def lowercase (s : String) : String :=
  String.ofList (s.toList.map Char.toLower)

def sameName (a b : String) : Bool :=
  a.toList.map Char.toLower == b.toList.map Char.toLower

end Narrative.Text
