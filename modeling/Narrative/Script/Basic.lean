import Narrative.Script.Elements
import Narrative.Script.Format
import Narrative.Script.Lines

/-!
This module contains the scores of scripts in either form.
-/

namespace Narrative.Script

def score (source : Option String) (format : ScriptFormat) (delimiter : String) (now : Instant) :
    Score :=
  match source, format with
  | none, _ => .empty now
  | some text, .text => ofText delimiter text now
  | some document, .xml => (ofDocument? document now).getD (.empty now)

end Narrative.Script
