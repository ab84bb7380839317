import Narrative.CommandLine.Config
import Narrative.Proofs.Frame
import Narrative.Proofs.Sitting

/-!
This module contains what scripts come to. The score of a script is assembled of what is authored in
it, and its sequences have not been played.
-/

namespace Narrative

namespace Sequence

/--
Nothing of the sequence has been played, and a count stands only beside a repetition.
-/
structure Authored (s : Sequence) : Prop where
  fresh : s.rewind = s
  single : s.repeats = false → s.count = none

theorem Authored.withSteps {s : Sequence} (h : s.Authored) (steps : List Step)
    : Authored { s with steps } :=
  ⟨congrArg (fun s : Sequence => { s with steps }) h.fresh, h.single⟩

end Sequence

namespace Score

def Authored (s : Score) : Prop :=
  ∀ sequence ∈ s.sequences, sequence.Authored

theorem assembled_authored (now : Instant) {parts : List Part}
    (hparts : ∀ sequence, .sequence sequence ∈ parts → sequence.Authored)
    : (assembled now parts).Authored := by
  intro sequence hmem
  obtain ⟨added, steps, hadded, heq⟩ := mem_assembled hmem
  rw [heq]
  exact (hparts added hadded).withSteps steps

end Score

namespace Script

theorem narration_authored (lines : List (List Char)) : (narration lines).Authored :=
  ⟨rfl, fun h => nomatch h⟩

theorem sequenceOf_authored (index : Nat) (node : Markup.Node)
    : (sequenceOf index node).Authored := by
  refine ⟨rfl, ?_⟩
  intro hsingle
  have hnone : node.attribute? "repeat" = none := by
    rw [← Option.not_isSome_iff_eq_none]
    exact Bool.eq_false_iff.mp hsingle
  unfold sequenceOf
  rw [hnone]
  rfl

theorem numberSequences_authored {sequences : List Sequence}
    (h : ∀ sequence ∈ sequences, sequence.Authored) (next : Nat)
    : ∀ sequence ∈ numberSequences next sequences, sequence.Authored := by
  induction sequences generalizing next with
  | nil => exact fun _ hmem => nomatch hmem
  | cons first rest ih =>
    rw [List.forall_mem_cons] at h
    unfold numberSequences
    dsimp only
    rw [List.forall_mem_cons]
    exact ⟨h.1.withSteps _, ih h.2 _⟩

def partsOf (root : Markup.Node) : List Part :=
  [.setting (.metadata (metadataOf root)), .setting (.timing (timingOf root))]
    ++ (numberSequences 0 ((root.elementsNamed "sequence").mapIdx sequenceOf)).map .sequence
    ++ ((root.elementsNamed "character").mapIdx characterOf).map .character
    ++ ((root.elementsNamed "location").mapIdx locationOf).map .location

theorem ofNode_eq (root : Markup.Node) (now : Instant)
    : ofNode root now = Score.assembled now (partsOf root) := by
  unfold ofNode Score.assembled partsOf
  rw [List.foldl_append, List.foldl_append, List.foldl_append, List.foldl_map, List.foldl_map,
    List.foldl_map]
  rfl

def partsOfText (delimiter text : String) : List Part :=
  let (metadata, story) := takeMetadata (lines delimiter.toList text.toList)
  [.setting (.metadata metadata), .sequence (narration story)]

theorem ofText_eq (delimiter text : String) (now : Instant)
    : ofText delimiter text now = Score.assembled now (partsOfText delimiter text) :=
  rfl

theorem mem_partsOf {root : Markup.Node} {sequence : Sequence}
    (h : .sequence sequence ∈ partsOf root)
    : sequence.Authored := by
  have hsequence : sequence
      ∈ numberSequences 0 ((root.elementsNamed "sequence").mapIdx sequenceOf) := by
    simpa [partsOf] using h
  apply numberSequences_authored _ 0 sequence hsequence
  intro authored hmem
  obtain ⟨index, hlt, hindex⟩ := List.mem_mapIdx.mp hmem
  rw [← hindex]
  exact sequenceOf_authored _ _

/--
A document that cannot be read comes to an empty score.
-/
theorem score_eq_assembled (text : String) (format : ScriptFormat) (delimiter : String)
    (now : Instant)
    : ∃ parts, score (some text) format delimiter now = Score.assembled now parts
        ∧ ∀ sequence, .sequence sequence ∈ parts → sequence.Authored := by
  cases format with
  | text =>
    refine ⟨partsOfText delimiter text, ofText_eq delimiter text now, ?_⟩
    intro sequence hmem
    have : sequence = narration (takeMetadata (lines delimiter.toList text.toList)).2 := by
      simpa [partsOfText] using hmem
    rw [this]
    exact narration_authored _
  | xml =>
    unfold score ofDocument?
    dsimp only
    cases Markup.Node.ofDocument? text with
    | none => exact ⟨[], rfl, fun _ hmem => nomatch hmem⟩
    | some root => exact ⟨partsOf root, ofNode_eq root now, fun _ hmem => mem_partsOf hmem⟩

end Script

namespace CommandLine.Config

/--
A player starts from a score that is assembled of a script and the settings of its configuration.
-/
theorem player_eq_opening (config : Config) (text : String) (now : Instant) {ρ : Type} (chance : ρ)
    : ∃ parts, config.player text now chance = (Sitting.opening now parts chance).player
        ∧ (config.player text now chance).score.Authored := by
  obtain ⟨parts, hscore, hparts⟩ :=
    Script.score_eq_assembled text config.format config.delimiter now
  let settings : List Part :=
    [.setting (.options config.options), .setting (.timeScale config.timeScale)]
  have hsame : config.player text now chance
      = (Sitting.opening now (parts ++ settings) chance).player := by
    unfold player Sitting.opening Score.assembled
    rw [hscore, List.foldl_append]
    rfl
  refine ⟨parts ++ settings, hsame, ?_⟩
  rw [hsame]
  apply Score.assembled_authored
  intro sequence hmem
  apply hparts
  simpa [settings] using hmem

end CommandLine.Config

end Narrative
