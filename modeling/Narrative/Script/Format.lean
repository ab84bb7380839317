import Narrative.Text.Case
import Narrative.Text.Path

/-!
This module contains the two forms of a script, and how a path tells them apart.
-/

namespace Narrative

inductive ScriptFormat where
  | text
  | xml
deriving Repr, DecidableEq, Inhabited

namespace ScriptFormat

def name : ScriptFormat → String
  | text => "text"
  | xml => "xml"

def all : List ScriptFormat :=
  [text, xml]

def ofName? (text : String) : Option ScriptFormat :=
  all.find? fun format => format.name == text

def ofPath (path : String) : ScriptFormat :=
  match Text.extension? path.toList with
  | some after => if Text.sameName (String.ofList after) "xml" then xml else text
  | none => text

end ScriptFormat

end Narrative
