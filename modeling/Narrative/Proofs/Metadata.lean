import Narrative.Proofs.Blanks
import Narrative.Proofs.Segments
import Narrative.Proofs.Steps

/-!
This module contains how the metadata of a script is told from its story. The three first lines and
lines that begin with the keys, wherever they stand among the others, say the same.
-/

namespace Narrative

namespace Script

open Text (Blank Splits)

theorem eq_append_withoutReturn (line : List Char)
    : line = withoutReturn line ∨ line = withoutReturn line ++ ['\r'] := by
  unfold withoutReturn
  split
  . next h =>
    right
    rw [List.dropLast_append_getLast? _ h]
  . left
    rfl

theorem trim_withoutReturn (line : List Char)
    : Text.trim (withoutReturn line) = Text.trim line := by
  obtain h | h := eq_append_withoutReturn line
  . rw [← h]
  . conv => rhs; rw [h]
    rw [Text.trim_append]
    simp [Blank, Text.isBlank]

/--
The text of these lines, with a newline behind each of them.
-/
def terminated (lines : List (List Char)) : List Char :=
  lines.flatMap (· ++ ['\n'])

theorem splits_terminated {lines : List (List Char)} (h : ∀ line ∈ lines, '\n' ∉ line)
    : Splits ['\n'] (terminated lines) (lines ++ [[]]) := by
  induction lines with
  | nil =>
    apply Splits.last
    simp [terminated]
  | cons line lines ih =>
    rw [List.forall_mem_cons] at h
    rw [terminated, List.flatMap_cons, List.append_assoc]
    apply Splits.next
    . rw [List.dropLast_singleton, List.append_nil, List.singleton_infix_iff]
      apply h.1
    . apply ih h.2

theorem lines_terminated {all : List (List Char)} (hne : all ≠ []) (h : ∀ line ∈ all, '\n' ∉ line)
    : lines ['\n'] (terminated all) = all.map withoutReturn := by
  have hlength := List.length_pos_iff.mpr hne
  rw [lines_eq_linesOf (Text.unbordered_singleton '\n') (by simp) (splits_terminated h), linesOf,
    if_pos]
  . rw [List.dropLast_concat]
  . simpa using hlength

namespace MetadataKey

/--
In lower case, the line begins with the marker of the key.
-/
def Opens (key : MetadataKey) (line : List Char) : Prop :=
  key.marker <+: line.map Char.toLower

instance (key : MetadataKey) (line : List Char) : Decidable (key.Opens line) :=
  decidable_of_iff (key.marker.isPrefixOf (line.map Char.toLower) = true) List.isPrefixOf_iff_prefix

/--
The line is the marker of the key, in any case, and then the value, with any white space around it.
-/
def Sets (key : MetadataKey) (value line : List Char) : Prop :=
  key.Opens line
    ∧ ∃ before after, Blank before ∧ Blank after
        ∧ line.drop key.marker.length = before ++ value ++ after

variable {key other : MetadataKey} {line : List Char}

theorem value?_eq (key : MetadataKey) (line : List Char)
    : key.value? line
        =
      if key.Opens line then some (Text.trim (line.drop key.marker.length)) else none := by
  unfold value? Opens
  simp only [List.prefix_iff_eq_take, List.map_take, eq_comm]

theorem value?_isSome_iff : (key.value? line).isSome = true ↔ key.Opens line := by
  rw [value?_eq]
  split <;> simp [*]

theorem mem_all (key : MetadataKey) : key ∈ all := by
  cases key <;> decide

theorem marker_inj (h : key.marker <+: other.marker) : key = other := by
  cases key <;> cases other <;> first | rfl | exact absurd h (by decide)

theorem Opens.eq (h : key.Opens line) (hother : other.Opens line) : key = other := by
  obtain h | h := List.prefix_or_prefix_of_prefix h hother
  . exact marker_inj h
  . exact (marker_inj h).symm

theorem opens_withoutReturn (key : MetadataKey) (line : List Char)
    : key.Opens (withoutReturn line) ↔ key.Opens line := by
  obtain h | h := eq_append_withoutReturn line
  . rw [← h]
  . generalize withoutReturn line = kept at *
    subst h
    unfold Opens
    rw [List.map_append, List.map_singleton, List.prefix_concat_iff]
    constructor
    . exact Or.inr
    . rintro (h | h)
      . have hmem : '\r' ∈ key.marker := by simp [h]
        cases key <;> exact absurd hmem (by decide)
      . exact h

theorem Opens.length_le (h : key.Opens line) : key.marker.length ≤ line.length := by
  simpa using List.IsPrefix.length_le h

theorem value?_withoutReturn (key : MetadataKey) (line : List Char)
    : key.value? (withoutReturn line) = key.value? line := by
  simp only [value?_eq, opens_withoutReturn]
  split
  . next h =>
    have hlength := ((opens_withoutReturn key line).mpr h).length_le
    obtain heq | heq := eq_append_withoutReturn line
    . rw [← heq]
    . conv => rhs; rw [heq]
      rw [List.drop_append_of_le_length hlength, Text.trim_append]
      simp [Blank, Text.isBlank]
  . rfl

theorem Sets.value? {value : List Char} (h : key.Sets (Text.trim value) line)
    : key.value? line = some (Text.trim value) := by
  obtain ⟨hopens, before, after, hbefore, hafter, hrest⟩ := h
  rw [value?_eq, if_pos hopens, hrest, Text.trim_append_append hbefore hafter, Text.trim_trim]

end MetadataKey

theorem keyed?_isSome_iff {line : List Char}
    : (keyed? line).isSome = true ↔ ∃ key : MetadataKey, key.Opens line := by
  unfold keyed?
  simp only [List.findSome?_isSome_iff, Option.isSome_map, MetadataKey.value?_isSome_iff]
  constructor
  . rintro ⟨key, -, h⟩
    exact ⟨key, h⟩
  . rintro ⟨key, h⟩
    exact ⟨key, key.mem_all, h⟩

theorem keyed?_eq_some_iff {line : List Char} {key : MetadataKey} {value : List Char}
    : keyed? line = some (key, value) ↔ key.value? line = some value := by
  have hfound : ∀ {key : MetadataKey} {value : List Char},
      keyed? line = some (key, value) → key.value? line = some value := by
    intro key value h
    obtain ⟨other, -, hother⟩ := List.exists_of_findSome?_eq_some h
    obtain ⟨found, hfound, heq⟩ := Option.map_eq_some_iff.mp hother
    obtain ⟨rfl, rfl⟩ := Prod.mk.inj heq
    exact hfound
  constructor
  . apply hfound
  . intro h
    have hopens : key.Opens line := by simp [← MetadataKey.value?_isSome_iff, h]
    have hsome : (keyed? line).isSome = true := keyed?_isSome_iff.mpr ⟨key, hopens⟩
    obtain ⟨⟨other, found⟩, hkeyed⟩ := Option.isSome_iff_exists.mp hsome
    have hother := hfound hkeyed
    -- one line does not begin with two keys
    obtain rfl : key = other := by
      apply hopens.eq
      simp [← MetadataKey.value?_isSome_iff, hother]
    rw [hkeyed, ← Option.some.inj (h.symm.trans hother)]

theorem keyed?_withoutReturn (line : List Char) : keyed? (withoutReturn line) = keyed? line := by
  unfold keyed?
  simp only [MetadataKey.value?_withoutReturn]

def MetadataKey.field (key : MetadataKey) (m : Metadata) : String :=
  match key with
  | title => m.title
  | credit => m.primaryCredits
  | description => m.description

theorem field_putKeyed (m : Metadata) (key other : MetadataKey) (value : String)
    : key.field (putKeyed m other value) = if other = key then value else key.field m := by
  cases key <;> cases other <;> rfl

/--
What a line says is put in the place of what has been said before.
-/
def putFound (m : Metadata) (found : MetadataKey × List Char) : Metadata :=
  putKeyed m found.1 (String.ofList found.2)

theorem keyedMetadata_eq_foldl (lines : List (List Char))
    : keyedMetadata lines = (lines.filterMap keyed?).foldl putFound {} := by
  rfl

theorem field_foldl_of_not_mem {key : MetadataKey} {found : List (MetadataKey × List Char)}
    (h : ∀ pair ∈ found, pair.1 ≠ key) (m : Metadata)
    : key.field (found.foldl putFound m) = key.field m := by
  induction found generalizing m with
  | nil => rfl
  | cons pair found ih =>
    rw [List.forall_mem_cons] at h
    rw [List.foldl_cons, ih h.2, putFound, field_putKeyed, if_neg h.1]

def unkeyed (m : Metadata) : Metadata :=
  { m with title := "", primaryCredits := "", description := "" }

theorem unkeyed_foldl (found : List (MetadataKey × List Char)) (m : Metadata)
    : unkeyed (found.foldl putFound m) = unkeyed m := by
  induction found generalizing m with
  | nil => rfl
  | cons pair found ih =>
    rw [List.foldl_cons, ih]
    unfold putFound putKeyed
    split <;> rfl

theorem metadata_ext {m n : Metadata} (hrest : unkeyed m = unkeyed n)
    (h : ∀ key : MetadataKey, key.field m = key.field n)
    : m = n := by
  have htitle := h .title
  have hcredit := h .credit
  have hdescription := h .description
  cases m
  cases n
  simp_all [unkeyed, MetadataKey.field]

section

variable (value : MetadataKey → List Char)

/--
What the score says of itself if `value` has been written behind each key.
-/
def declared : Metadata where
  title := String.ofList (Text.trim (value .title))
  primaryCredits := String.ofList (Text.trim (value .credit))
  description := String.ofList (Text.trim (value .description))

theorem field_declared (key : MetadataKey)
    : key.field (declared value) = String.ofList (Text.trim (value key)) := by
  cases key <;> rfl

/--
Each of the lines begins with a key, and the last one that begins with a key sets it to its value.
-/
structure Declares (settings : List (List Char)) : Prop where
  single : ∀ line ∈ settings, '\n' ∉ line
  opens : ∀ line ∈ settings, ∃ key : MetadataKey, key.Opens line
  last : ∀ key : MetadataKey, ∃ earlier line later, settings = earlier ++ line :: later
    ∧ key.Sets (Text.trim (value key)) line ∧ ∀ other ∈ later, ¬key.Opens other

variable {value} {settings story told : List (List Char)}

theorem Declares.ne_nil (h : Declares value settings) : settings ≠ [] := by
  obtain ⟨earlier, line, later, rfl, -⟩ := h.last .title
  simp

theorem Declares.keyedMetadata_eq (h : Declares value settings)
    : keyedMetadata settings = declared value := by
  rw [keyedMetadata_eq_foldl]
  apply metadata_ext
  . rw [unkeyed_foldl]
    rfl
  . intro key
    -- what is found behind the last line of the key leaves the field as it is
    obtain ⟨earlier, line, later, rfl, hsets, hlater⟩ := h.last key
    have hline := keyed?_eq_some_iff.mpr hsets.value?
    rw [List.filterMap_append, List.filterMap_cons_some hline, List.foldl_append, List.foldl_cons,
      field_foldl_of_not_mem, putFound, field_putKeyed, if_pos rfl, field_declared]
    intro pair hpair
    obtain ⟨other, hother, hfound⟩ := List.mem_filterMap.mp hpair
    rintro rfl
    apply hlater other hother
    rw [← MetadataKey.value?_isSome_iff, keyed?_eq_some_iff.mp hfound]
    rfl

/--
`told` has the lines of both lists, those of each in their order.
-/
inductive Interleaves : (story settings told : List (List Char)) → Prop where
  | nil : Interleaves [] [] []
  | story {story settings told : List (List Char)} (line : List Char) :
    Interleaves story settings told → Interleaves (line :: story) settings (line :: told)
  | setting {story settings told : List (List Char)} (line : List Char) :
    Interleaves story settings told → Interleaves story (line :: settings) (line :: told)

theorem Interleaves.mem (h : Interleaves story settings told)
    : ∀ line ∈ told, line ∈ story ∨ line ∈ settings := by
  induction h with
  | nil => simp
  | story line _ ih => grind
  | setting line _ ih => grind

theorem Interleaves.filter_eq (h : Interleaves story settings told)
    (hstory : ∀ line ∈ story, keyed? line = none)
    (hsettings : ∀ line ∈ settings, keyed? line ≠ none)
    : told.filterMap keyed? = settings.filterMap keyed?
        ∧ told.filter (fun line => (keyed? line).isNone) = story := by
  induction h with
  | nil => simp
  | story line _ ih =>
    rw [List.forall_mem_cons] at hstory
    obtain ⟨hline, hlater⟩ := hstory
    obtain ⟨hfound, hrest⟩ := ih hlater hsettings
    rw [List.filterMap_cons_none hline, List.filter_cons_of_pos (by simp [hline])]
    exact ⟨hfound, congrArg _ hrest⟩
  | setting line _ ih =>
    rw [List.forall_mem_cons] at hsettings
    obtain ⟨hline, hlater⟩ := hsettings
    obtain ⟨hfound, hrest⟩ := ih hstory hlater
    rw [List.filterMap_cons, List.filterMap_cons, hfound,
      List.filter_cons_of_neg (by simpa [← Option.isSome_iff_ne_none] using hline)]
    exact ⟨rfl, hrest⟩

def IsUnkeyed (line : List Char) : Prop :=
  '\n' ∉ line ∧ ∀ key : MetadataKey, ¬key.Opens line

theorem IsUnkeyed.keyed?_eq_none {line : List Char} (h : IsUnkeyed line) : keyed? line = none := by
  rw [← Option.not_isSome_iff_eq_none, keyed?_isSome_iff]
  rintro ⟨key, hkey⟩
  exact h.2 key hkey

theorem takeMetadata_of_interleaves (hstory : ∀ line ∈ story, IsUnkeyed line)
    (hsettings : Declares value settings) (htold : Interleaves story settings told)
    : takeMetadata (told.map withoutReturn)
        =
      (withDefaults (declared value), story.map withoutReturn) := by
  have hkeyed : ∀ line ∈ settings, keyed? line ≠ none := by
    intro line hline
    rw [← Option.isSome_iff_ne_none, keyed?_isSome_iff]
    exact hsettings.opens line hline
  obtain ⟨hfound, hrest⟩ := htold.filter_eq (fun line h => (hstory line h).keyed?_eq_none) hkeyed
  have hany : ((told.map withoutReturn).any fun line => (keyed? line).isSome) = true := by
    obtain ⟨setting, hsetting⟩ := List.exists_mem_of_ne_nil _ hsettings.ne_nil
    obtain ⟨found, hset⟩ := Option.ne_none_iff_exists'.mp (hkeyed setting hsetting)
    have hmem : found ∈ told.filterMap keyed? := by
      rw [hfound]
      exact List.mem_filterMap.mpr ⟨setting, hsetting, hset⟩
    obtain ⟨line, hline, hopens⟩ := List.mem_filterMap.mp hmem
    simp only [List.any_map, Function.comp_def, keyed?_withoutReturn, List.any_eq_true]
    exact ⟨line, hline, Option.isSome_of_eq_some hopens⟩
  unfold takeMetadata
  rw [if_pos hany, ← hsettings.keyedMetadata_eq, ← hrest, List.filter_map]
  simp only [keyedMetadata_eq_foldl, List.filterMap_map, Function.comp_def, keyed?_withoutReturn,
    hfound]

theorem takeMetadata_of_positional (hvalue : ∀ key, IsUnkeyed (value key))
    (hstory : ∀ line ∈ story, IsUnkeyed line)
    : takeMetadata ((MetadataKey.all.map value ++ story).map withoutReturn)
        =
      (withDefaults (declared value), story.map withoutReturn) := by
  have hnone : ¬((MetadataKey.all.map value ++ story).map withoutReturn).any
      (fun line => (keyed? line).isSome) = true := by
    simp only [List.any_map, Function.comp_def, keyed?_withoutReturn, List.any_eq_true,
      List.mem_append, List.mem_map]
    rintro ⟨line, ⟨key, -, rfl⟩ | hline, hkeyed⟩
    . simp [(hvalue key).keyed?_eq_none] at hkeyed
    . simp [(hstory line hline).keyed?_eq_none] at hkeyed
  unfold takeMetadata
  rw [if_neg hnone]
  simp [positionalMetadata, declared, MetadataKey.all, trim_withoutReturn]

end

/--
The step that narrates a line, when it is complete.
-/
def narrated (index : Nat) (line : List Char) : Step :=
  .mk { id := index, content := String.ofList line, target := .placeholder true } []

theorem sequences_init_narration (now : Instant) (metadata : Metadata) (story : List (List Char))
    : ((({ Score.empty now with metadata }).addSequence (narration story)).init).sequences
        =
      [{ narration story with steps := story.mapIdx narrated }] := by
  have hsteps : Step.mapAll
      (({ Score.empty now with metadata }).addSequence (narration story)).resolve
      (narration story).steps = story.mapIdx narrated := by
    apply List.ext_getElem
    . simp [Step.mapAll_eq, narration]
    . intros
      simp [Step.mapAll_eq, narration, narrated, Step.map, Step.mapAll, Score.resolve,
        Score.targetOf, Score.destinationOf]
  unfold Score.init Score.addSequence at hsteps ⊢
  simp only [Score.empty, List.nil_append, List.map_singleton] at hsteps ⊢
  rw [hsteps]

theorem ofText_newline (now : Instant) {lines : List (List Char)} {metadata : Metadata}
    {story : List (List Char)} (hne : lines ≠ []) (hlines : ∀ line ∈ lines, '\n' ∉ line)
    (h : takeMetadata (lines.map withoutReturn) = (metadata, story))
    : ofText "\n" (String.ofList (terminated lines)) now
        =
      (({ Score.empty now with metadata }).addSequence (narration story)).init := by
  have hread : Script.lines "\n".toList (String.ofList (terminated lines)).toList
      = lines.map withoutReturn := by
    have htext : (String.ofList (terminated lines)).toList = terminated lines :=
      String.toList_ofList
    rw [htext]
    apply lines_terminated hne hlines
  unfold ofText
  rw [hread, h]

/--
The lines of a story give the same score with the title, the credit and the description in the three
lines before it as with lines anywhere in it that set the keys to the same values. The last line with
a key is the one that counts.
-/
theorem ofText_interleaved_eq {value : MetadataKey → List Char}
    {story settings told : List (List Char)} (hvalue : ∀ key, IsUnkeyed (value key))
    (hstory : ∀ line ∈ story, IsUnkeyed line) (hsettings : Declares value settings)
    (htold : Interleaves story settings told) (now : Instant)
    : let score := ofText "\n" (String.ofList (terminated told)) now
      score = ofText "\n" (String.ofList (terminated (MetadataKey.all.map value ++ story))) now
        ∧ score.metadata = withDefaults (declared value)
        ∧ ∃ sequence, score.sequences = [sequence] ∧ sequence.id = "sequence0"
            ∧ sequence.repeats = true ∧ sequence.count = none
            ∧ sequence.steps = (story.map withoutReturn).mapIdx narrated := by
  have hne : told ≠ [] := by
    rintro rfl
    cases htold
    exact hsettings.ne_nil rfl
  have htoldLines : ∀ line ∈ told, '\n' ∉ line := by
    intro line hline
    obtain h | h := htold.mem line hline
    . exact (hstory line h).1
    . exact hsettings.single line h
  have hfirstLines : ∀ line ∈ MetadataKey.all.map value ++ story, '\n' ∉ line := by
    intro line hline
    obtain h | h := List.mem_append.mp hline
    . obtain ⟨key, -, rfl⟩ := List.mem_map.mp h
      exact (hvalue key).1
    . exact (hstory line h).1
  rw [ofText_newline now hne htoldLines (takeMetadata_of_interleaves hstory hsettings htold),
    ofText_newline now (by simp [MetadataKey.all]) hfirstLines
      (takeMetadata_of_positional hvalue hstory)]
  exact ⟨rfl, rfl, _, sequences_init_narration now _ _, rfl, rfl, rfl, rfl⟩

theorem ofText_interleaved_eq_draft
    : ofText "\n"
          "STEPWISE.CREDIT: C \none\nstepwise.title:draft\nStepwise.Title:T\nstepwise.description:\n"
          default
        =
      ofText "\n" " T\nC\n\none\n" default := by
  let value (key : MetadataKey) : List Char :=
    (key.field { title := " T", primaryCredits := "C" }).toList
  have hnone : Blank [] := by simp [Blank]
  have hblank : Blank [' '] := by simp [Blank, Text.isBlank]
  have hsettings : Declares value ["STEPWISE.CREDIT: C ".toList, "stepwise.title:draft".toList,
      "Stepwise.Title:T".toList, "stepwise.description:".toList] := by
    constructor
    . decide
    . simp only [List.forall_mem_cons]
      exact ⟨⟨.credit, by decide⟩, ⟨.title, by decide⟩, ⟨.title, by decide⟩,
        ⟨.description, by decide⟩, by simp⟩
    . intro key
      cases key with
      | title => exact ⟨[_, _], _, [_], rfl, ⟨by decide, [], [], hnone, hnone, rfl⟩, by decide⟩
      | credit => exact ⟨[], _, _, rfl, ⟨by decide, [' '], [' '], hblank, hblank, rfl⟩, by decide⟩
      | description =>
        exact ⟨[_, _, _], _, [], rfl, ⟨by decide, [], [], hnone, hnone, rfl⟩, by decide⟩
  have hvalue : ∀ key, IsUnkeyed (value key) := by
    intro key
    cases key <;> exact ⟨by decide, fun other => by cases other <;> decide⟩
  have hstory : ∀ line ∈ ["one".toList], IsUnkeyed line := by
    simp only [List.forall_mem_cons]
    exact ⟨⟨by decide, fun other => by cases other <;> decide⟩, by simp⟩
  have h := ofText_interleaved_eq hvalue hstory hsettings
    (.setting _ (.story _ (.setting _ (.setting _ (.setting _ .nil))))) default
  exact h.1

end Script

end Narrative
