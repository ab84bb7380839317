import Narrative.Sequence.Basic
import Narrative.Step.Record

/-!
This module contains the JSON record of a sequence.
-/

namespace Narrative.Sequence

def toJson (s : Sequence) : Json :=
  .obj
    [ ("id", .str s.id)
    , ("steps", .arr (s.steps.map Step.toJson))
    , ("step_index", .ofOption (fun index => .int index) s.cursor)
    , ("repeat", .bool s.repeats)
    , ("count", .ofOption (fun count => .int count) s.count)
    , ("shuffle", .bool s.shuffle)
    , ("grouping", .ofOption .str s.grouping)
    , ("completions", .int s.completions)
    , ("used_indexes", .arr (s.used.map fun (index : Nat) => .int index))
    , ("percent_completed", .num s.percent)
    , ("is_completed", .bool s.completed)
    , ("is_exhausted", .bool s.exhausted) ]

end Narrative.Sequence
