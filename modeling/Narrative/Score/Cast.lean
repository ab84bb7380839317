/-!
This module contains the characters and the places of a story.
-/

namespace Narrative

/--
A character. One that is pinned stays hidden for good, and any other shows itself in time.
-/
structure Character where
  id : String
  firstName : String := ""
  lastName : String := ""
  visible : Bool := false
  pinnedHidden : Bool := false
deriving Repr, DecidableEq, Inhabited

namespace Character

def authored (id firstName lastName : String) (visible : Option Bool) : Character :=
  { id, firstName, lastName, visible := visible == some true, pinnedHidden := visible == some false }

def fullName (c : Character) : String :=
  if c.lastName == "" then c.firstName else c.firstName ++ " " ++ c.lastName

def reveal (c : Character) : Character :=
  if c.pinnedHidden then c else { c with visible := true }

end Character

structure Location where
  id : String
  latitude : Float := 0.0
  longitude : Float := 0.0
  name : String := ""
deriving Inhabited

def Location.nowhere : Location :=
  { id := "defaultLocation", name := "Default Location" }

end Narrative
