import Narrative.Score.Directory
import Narrative.Text.Segments

/-!
This module contains scripts in text form. Each line is narrated, apart from those that say something
about the script: either lines that begin with a key or, if there are none, the first three.
-/

namespace Narrative.Script

inductive MetadataKey where
  | title
  | credit
  | description
deriving Repr, DecidableEq

namespace MetadataKey

def marker : MetadataKey → List Char
  | title => "stepwise.title:".toList
  | credit => "stepwise.credit:".toList
  | description => "stepwise.description:".toList

def all : List MetadataKey :=
  [title, credit, description]

def value? (key : MetadataKey) (line : List Char) : Option (List Char) :=
  if (line.take key.marker.length).map Char.toLower = key.marker then
    some (Text.trim (line.drop key.marker.length))
  else
    none

end MetadataKey

def keyed? (line : List Char) : Option (MetadataKey × List Char) :=
  MetadataKey.all.findSome? fun key => (key.value? line).map fun value => (key, value)

def withoutReturn (line : List Char) : List Char :=
  if line.getLast? = some '\r' then line.dropLast else line

def lines (delimiter text : List Char) : List (List Char) :=
  let delimiter := if delimiter.isEmpty then ['\n'] else delimiter
  let all := (Text.segments delimiter text).map withoutReturn
  -- nothing follows a delimiter at the end of the text
  if all.length > 1 ∧ delimiter.isSuffixOf text then all.dropLast else all

def putKeyed (m : Metadata) (key : MetadataKey) (value : String) : Metadata :=
  match key with
  | .title => { m with title := value }
  | .credit => { m with primaryCredits := value }
  | .description => { m with description := value }

def withDefaults (m : Metadata) : Metadata :=
  { m with
    title := if m.title == "" then "Untitled" else m.title
    primaryCredits := if m.primaryCredits == "" then "Author unknown" else m.primaryCredits }

def keyedMetadata (lines : List (List Char)) : Metadata :=
  (lines.filterMap keyed?).foldl (fun m (key, value) => putKeyed m key (String.ofList value)) {}

def positionalMetadata (lines : List (List Char)) : Metadata :=
  let line (index : Nat) := String.ofList (Text.trim (lines.getD index []))
  { title := line 0, primaryCredits := line 1, description := line 2 }

def takeMetadata (lines : List (List Char)) : Metadata × List (List Char) :=
  if lines.any fun line => (keyed? line).isSome then
    (withDefaults (keyedMetadata lines), lines.filter fun line => (keyed? line).isNone)
  else
    (withDefaults (positionalMetadata lines), lines.drop 3)

def narration (lines : List (List Char)) : Sequence where
  id := "sequence0"
  steps := lines.mapIdx fun index line => .mk { id := index, content := String.ofList line } []
  repeats := true

def ofText (delimiter text : String) (now : Instant) : Score :=
  let (metadata, story) := takeMetadata (lines delimiter.toList text.toList)
  (({ Score.empty now with metadata }).addSequence (narration story)).init

end Narrative.Script
