import Narrative.Proofs.Dispatch
import Narrative.Proofs.Run

/-!
This module contains what playback looks up in a score, and which fields of a score can change when it
is assembled, set, steered and played, whatever they change to.
-/

namespace Narrative

theorem map_modify_eq {items : List α} {f : α → α} {g : α → β} (h : ∀ item, g (f item) = g item)
    (index : Nat)
    : (items.modify index f).map g = items.map g := by
  apply List.ext_getElem?
  intro i
  simp only [List.getElem?_map, List.getElem?_modify]
  cases items[i]? with
  | none => rfl
  | some item =>
    by_cases hindex : index = i
    . simp [hindex, h]
    . simp [hindex]

theorem map_set_eq {items : List α} {g : α → β} {index : Nat} {item other : α}
    (hget : items[index]? = some item) (h : g other = g item)
    : (items.set index other).map g = items.map g := by
  obtain ⟨hlt, hitem⟩ := List.getElem?_eq_some_iff.mp hget
  have hlt : index < (items.map g).length := by rwa [List.length_map]
  have hsame : g other = (items.map g)[index] := by rw [h, List.getElem_map, hitem]
  rw [List.map_set, hsame, List.set_getElem_self]

namespace Score

theorem topLevel?_eq_some_iff {s : Score} {index : Nat}
    : s.topLevel? = some index ↔ s.sequenceIndex = index ∧ index < s.sequences.length := by
  unfold topLevel?
  split
  . next hlt =>
    rw [Option.some.injEq]
    exact ⟨fun heq => ⟨heq, heq ▸ hlt⟩, fun h => h.1⟩
  . next hnot => exact iff_of_false nofun fun h => hnot (h.1 ▸ h.2)

theorem isExhausted_eq {s : Score} {index : Nat} {sequence : Sequence}
    (h : s.sequences[index]? = some sequence)
    : s.isExhausted index = sequence.exhausted := by
  unfold isExhausted
  rw [h]
  rfl

theorem isCompleted_eq {s : Score} {index : Nat} {sequence : Sequence}
    (h : s.sequences[index]? = some sequence)
    : s.isCompleted index = sequence.completed := by
  unfold isCompleted
  rw [h]
  rfl

theorem set_eq (s : Score) (setting : Setting)
    : ∃ metadata timing options world,
        s.set setting = { s with metadata, timing, options, world } := by
  cases setting with
  | location id =>
    simp only [set, setLocation]
    split
    . exact ⟨_, _, _, _, rfl⟩
    . exact ⟨_, _, _, _, rfl⟩
  | _ => exact ⟨_, _, _, _, rfl⟩

theorem add_eq (s : Score) (part : Part)
    : ∃ metadata timing options world sequences characters locations,
        s.add part
          =
        { s with metadata, timing, options, world, sequences, characters, locations } := by
  cases part with
  | setting setting =>
    obtain ⟨_, _, _, _, h⟩ := s.set_eq setting
    exact ⟨_, _, _, _, _, _, _, h⟩
  | _ => exact ⟨_, _, _, _, _, _, _, rfl⟩

theorem foldl_add_eq (parts : List Part) (s : Score)
    : ∃ metadata timing options world sequences characters locations,
        parts.foldl add s
          =
        { s with metadata, timing, options, world, sequences, characters, locations } := by
  induction parts generalizing s with
  | nil => exact ⟨_, _, _, _, _, _, _, rfl⟩
  | cons part parts ih =>
    obtain ⟨_, _, _, _, _, _, _, h⟩ := s.add_eq part
    rw [List.foldl_cons, h]
    exact ih _

theorem assembled_eq (now : Instant) (parts : List Part)
    : ∃ metadata timing options world sequences characters locations,
        assembled now parts
          =
        { metadata, timing, options, world, sequences, characters, locations } := by
  obtain ⟨_, _, _, _, _, _, _, h⟩ := foldl_add_eq parts (empty now)
  unfold assembled
  rw [h]
  exact ⟨_, _, _, _, _, _, _, rfl⟩

theorem mem_foldl_add {parts : List Part} {s : Score} {sequence : Sequence}
    (h : sequence ∈ (parts.foldl add s).sequences)
    : sequence ∈ s.sequences ∨ .sequence sequence ∈ parts := by
  induction parts generalizing s with
  | nil => exact Or.inl h
  | cons part parts ih =>
    cases ih h with
    | inr hlater => exact Or.inr (List.mem_cons_of_mem _ hlater)
    | inl hfirst =>
      cases part with
      | sequence added =>
        cases List.mem_append.mp hfirst with
        | inl hold => exact Or.inl hold
        | inr hnew =>
          rw [List.mem_singleton.mp hnew]
          exact Or.inr List.mem_cons_self
      | setting setting =>
        obtain ⟨_, _, _, _, hset⟩ := s.set_eq setting
        unfold add at hfirst
        dsimp only at hfirst
        rw [hset] at hfirst
        exact Or.inl hfirst
      | _ => exact Or.inl hfirst

/--
The sequences of a score are those that were added, but for what their steps refer to.
-/
theorem mem_assembled {now : Instant} {parts : List Part} {sequence : Sequence}
    (h : sequence ∈ (assembled now parts).sequences)
    : ∃ added steps, .sequence added ∈ parts ∧ sequence = { added with steps } := by
  obtain ⟨added, hadded, heq⟩ := List.mem_map.mp h
  cases mem_foldl_add hadded with
  | inl hnone => exact nomatch hnone
  | inr hmem => exact ⟨added, _, hmem, heq.symm⟩

theorem choose_eq (s : Score)
    : ∃ queue current, s.choose = { s with queue, current } := by
  unfold choose
  dsimp
  split
  . exact ⟨_, _, rfl⟩
  . exact ⟨_, _, rfl⟩

theorem choose_of_queue_eq_nil {s : Score} (h : s.queue = [])
    : s.choose
        =
      match s.topLevel? with
      | none => s
      | some index =>
        { s with current := if s.isExhausted index then s.current else some index } := by
  have hsame : { s with queue := [] } = s := by rw [← h]
  unfold choose
  rw [h]
  cases s.topLevel? with
  | none => exact hsame
  | some index => rfl

theorem choose_of_not_completed {s : Score} {top : Nat} {rest : List Nat}
    (hqueue : s.queue = top :: rest) (hcompleted : s.isCompleted top = false)
    (hexhausted : s.isExhausted top = false)
    : s.choose = { s with current := some top } := by
  unfold choose
  rw [hqueue]
  dsimp only
  rw [if_neg (Bool.eq_false_iff.mp hcompleted)]
  have hfront : ((top :: rest).head? <|> s.topLevel?) = some top := rfl
  rw [hfront]
  dsimp only
  rw [if_neg (Bool.eq_false_iff.mp hexhausted)]

theorem choose_of_completed {s : Score} {top front : Nat} {rest : List Nat}
    (hqueue : s.queue = top :: rest) (hcompleted : s.isCompleted top = true)
    (hfront : (rest.head? <|> s.topLevel?) = some front) (hexhausted : s.isExhausted front = false)
    : s.choose = { s with queue := rest, current := some front } := by
  unfold choose
  rw [hqueue]
  dsimp only
  rw [if_pos hcompleted, hfront]
  dsimp only
  rw [if_neg (Bool.eq_false_iff.mp hexhausted)]

theorem cancelTick_eq (s : Score)
    : ∃ playTask timeline, s.cancelTick = { s with playTask, timeline } := by
  unfold cancelTick
  split
  . exact ⟨_, _, rfl⟩
  . exact ⟨_, _, rfl⟩

theorem scheduleTick_eq (s : Score) (now : Instant)
    : ∃ playTask timeline, s.scheduleTick now = { s with playTask, timeline } := by
  obtain ⟨_, _, h⟩ := s.cancelTick_eq
  unfold scheduleTick
  rw [h]
  exact ⟨_, _, rfl⟩

theorem stop_eq (s : Score)
    : ∃ playTask timeline, s.stop = { s with playing := false, playTask, timeline } := by
  apply cancelTick_eq

theorem steer_eq (s : Score) (step : Step)
    : ∃ sequences sequenceIndex current,
        s.steer step = { s with sequences, sequenceIndex, current } := by
  unfold steer
  split
  . exact ⟨_, _, _, rfl⟩
  . exact ⟨_, _, _, rfl⟩
  . exact ⟨_, _, _, rfl⟩

end Score

theorem Performance.scheduleTick_eq {ρ : Type} (clock : Clock ρ) (p : Performance ρ)
    : ∃ playTask timeline,
        p.scheduleTick clock
          =
        { (p.read clock).2 with score := { p.score with playTask, timeline } } := by
  obtain ⟨playTask, timeline, hschedule⟩ := p.score.scheduleTick_eq (p.read clock).1
  refine ⟨playTask, timeline, ?_⟩
  rw [← hschedule]
  rfl

end Narrative
