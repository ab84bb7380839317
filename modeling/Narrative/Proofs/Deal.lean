import Mathlib.Data.List.Nodup
import Mathlib.Data.List.Perm.Subperm
import Mathlib.Logic.Function.Iterate
import Narrative.Proofs.Advance
import Narrative.Proofs.Recital

/-!
This module contains the draws of a shuffled sequence: whatever the source gives, all places come
once before any comes again.
-/

namespace Narrative

namespace Sequence

variable {ρ : Type} [RandomSource ρ]

/--
The source that is left when a place has been asked for.
-/
def ask (size : Nat) (source : ρ) : ρ :=
  (RandomSource.draw source 0 (size - 1)).2

theorem drawUnused_asks (used : List Nat) (size attempts : Nat) (source : ρ)
    : ∃ asks ≤ attempts, (drawUnused used size attempts source).2 = (ask size)^[asks] source := by
  induction attempts generalizing source with
  | zero => exact ⟨0, Nat.le_refl 0, rfl⟩
  | succ attempts ih =>
    unfold drawUnused
    dsimp
    split
    . obtain ⟨asks, hle, hleft⟩ := ih (ask size source)
      exact ⟨asks + 1, Nat.succ_le_succ hle, hleft⟩
    . exact ⟨1, Nat.le_add_left 1 attempts, rfl⟩

theorem drawUnused_not_mem {used : List Nat} {size attempts index : Nat} {source left : ρ}
    (h : drawUnused used size attempts source = (some index, left))
    : index ∉ used := by
  induction attempts generalizing source with
  | zero => simp [drawUnused] at h
  | succ attempts ih =>
    unfold drawUnused at h
    dsimp at h
    split at h
    . exact ih h
    . next hunused =>
      simp only [Prod.mk.injEq, Option.some.injEq] at h
      rw [← h.1]
      simpa using hunused

theorem firstUnused_not_mem {used : List Nat} {size : Nat} (h : used.length < size)
    : firstUnused used size ∉ used := by
  unfold firstUnused
  cases hfind : (List.range size).find? fun index => !used.contains index with
  | none =>
    -- with all places used there are at least as many of them as places
    have hsubset : List.range size ⊆ used := by
      intro index hmem
      have := List.find?_eq_none.mp hfind index hmem
      simpa using this
    have := (List.subperm_of_subset List.nodup_range hsubset).length_le
    rw [List.length_range] at this
    omega
  | some index =>
    have := List.find?_some hfind
    simpa using this

theorem drawIndex_not_mem (s : Sequence) (source : ρ) (h : s.used.length < s.size)
    : (s.drawIndex source).1 ∉ s.used := by
  unfold drawIndex
  split
  . next hdraw => exact drawUnused_not_mem hdraw
  . exact firstUnused_not_mem h

theorem drawIndex_asks (s : Sequence) (source : ρ)
    : ∃ asks ≤ s.size * attemptsPerStep, (s.drawIndex source).2 = (ask s.size)^[asks] source := by
  obtain ⟨asks, hle, hleft⟩ := drawUnused_asks s.used s.size (s.size * attemptsPerStep) source
  refine ⟨asks, hle, ?_⟩
  rw [← hleft]
  unfold drawIndex
  split
  . next hdraw => rw [hdraw]
  . next hdraw => rw [hdraw]

theorem any_max_le_mono {count : Option Nat} {draws later : Nat} (hle : draws ≤ later)
    (h : count.any (max · 1 ≤ draws) = true)
    : count.any (max · 1 ≤ later) = true := by
  rw [Option.any_eq_true] at h ⊢
  obtain ⟨least, hmem, hreached⟩ := h
  refine ⟨least, hmem, ?_⟩
  rw [decide_eq_true_eq] at hreached ⊢
  exact Nat.le_trans hreached hle

theorem perm_range {places : List Nat} {size : Nat} (hnodup : places.Nodup)
    (hlt : ∀ place ∈ places, place < size) (hlength : size ≤ places.length)
    : places.Perm (List.range size) := by
  have hsubset : places ⊆ List.range size := by
    intro place hmem
    exact List.mem_range.mpr (hlt place hmem)
  apply (List.subperm_of_subset hnodup hsubset).perm_of_length_le
  rw [List.length_range]
  exact hlength

/--
Laid one after another, hands of the same size come back when as many places at a time are taken.
-/
theorem take_drop_flatten {hands : List (List Nat)} {rest : List Nat} {size : Nat}
    (hhands : ∀ hand ∈ hands, hand.length = size) (hrest : rest.length < size) (k : Nat)
    : ((hands.flatten ++ rest).drop (k * size)).take size = ((hands ++ [rest])[k]?).getD [] := by
  induction hands generalizing k with
  | nil =>
    cases k with
    | zero => simpa using List.take_of_length_le (Nat.le_of_lt hrest)
    | succ k =>
      rw [List.drop_of_length_le]
      . simp
      . rw [Nat.succ_mul, List.flatten_nil, List.nil_append]
        omega
  | cons hand hands ih =>
    have hfull := hhands hand List.mem_cons_self
    have hothers := ih fun other hmem => hhands other (List.mem_cons_of_mem hand hmem)
    rw [List.flatten_cons, List.append_assoc]
    cases k with
    | zero => simp [← hfull]
    | succ k =>
      rw [Nat.succ_mul, Nat.add_comm, ← List.drop_drop, ← hfull, List.drop_left, hfull]
      exact hothers k

/--
The places `drawn` are full hands, each with every place once, followed by the hand `used` that is
not full yet.
-/
structure Hands (size : Nat) (drawn used : List Nat) : Prop where
  full : ∃ hands : List (List Nat), drawn = hands.flatten ++ used
    ∧ ∀ hand ∈ hands, hand.Perm (List.range size)
  nodup : used.Nodup
  lt : ∀ place ∈ used, place < size
  short : used.length < size

namespace Hands

variable {size : Nat} {drawn used : List Nat}

theorem nil (hsize : 0 < size) : Hands size [] [] where
  full := ⟨[], rfl, by simp⟩
  nodup := List.nodup_nil
  lt := by simp
  short := hsize

theorem draw (h : Hands size drawn used) {place : Nat} (hlt : place < size)
    (hnew : place ∉ used)
    : Hands size (drawn ++ [place])
        (if used.length + 1 < size then used ++ [place] else []) := by
  have hnodup : (used ++ [place]).Nodup := by
    rw [← List.concat_eq_append]
    exact h.nodup.concat hnew
  have hplaces : ∀ other ∈ used ++ [place], other < size := by
    intro other hmem
    rw [List.mem_append, List.mem_singleton] at hmem
    cases hmem with
    | inl hbefore => exact h.lt other hbefore
    | inr hnow => exact hnow ▸ hlt
  obtain ⟨hands, hdrawn, hfull⟩ := h.full
  split
  . next hshort =>
    refine ⟨⟨hands, ?_, hfull⟩, hnodup, hplaces, ?_⟩
    . rw [hdrawn, List.append_assoc]
    . rw [List.length_append]
      exact hshort
  . next hlast =>
    -- the hand is full, and another begins
    refine ⟨⟨hands ++ [used ++ [place]], ?_, ?_⟩, List.nodup_nil, by simp, Nat.zero_lt_of_lt hlt⟩
    . simp [hdrawn]
    . intro hand hmem
      rw [List.mem_append, List.mem_singleton] at hmem
      cases hmem with
      | inl hbefore => exact hfull hand hbefore
      | inr hnow =>
        rw [hnow]
        apply perm_range hnodup hplaces
        rw [List.length_append]
        exact Nat.not_lt.mp hlast

theorem block (h : Hands size drawn used) (k : Nat)
    : let hand := (drawn.drop (k * size)).take size
      hand.Nodup
        ∧ (∀ place ∈ hand, place < size)
        ∧ (hand.length = size → hand.Perm (List.range size)) := by
  intro hand
  suffices hfair : hand.Nodup ∧ ∀ place ∈ hand, place < size by
    refine ⟨hfair.1, hfair.2, ?_⟩
    intro hlength
    exact perm_range hfair.1 hfair.2 (Nat.le_of_eq hlength.symm)
  obtain ⟨hands, hdrawn, hfull⟩ := h.full
  have hlength : ∀ hand ∈ hands, hand.length = size := by
    intro hand hmem
    rw [(hfull hand hmem).length_eq, List.length_range]
  have hhand : hand = ((hands ++ [used])[k]?).getD [] := by
    rw [← take_drop_flatten hlength h.short, ← hdrawn]
  rw [hhand]
  cases hget : (hands ++ [used])[k]? with
  | none => simp
  | some hand =>
    have hmem := List.mem_of_getElem? hget
    rw [List.mem_append, List.mem_singleton] at hmem
    cases hmem with
    | inl hbefore =>
      have hperm := hfull hand hbefore
      refine ⟨hperm.nodup_iff.mpr List.nodup_range, ?_⟩
      intro place hplace
      exact List.mem_range.mp (hperm.mem_iff.mp hplace)
    | inr hnow =>
      rw [hnow]
      exact ⟨h.nodup, h.lt⟩

end Hands

/--
The state of a shuffled sequence after the draws of the places `drawn`, whatever cues and resets
came in between.
-/
structure Dealt (drawn : List Nat) (s : Sequence) : Prop where
  shuffle : s.shuffle = true
  hands : Hands s.size drawn s.used
  completions : s.completions = drawn.length
  exhausted : s.exhausted = true → s.count.any (max · 1 ≤ drawn.length) = true

namespace Dealt

variable {drawn : List Nat} {s : Sequence}

theorem congr (h : Dealt drawn s) {s' : Sequence} (hrewind : s'.rewind = s.rewind)
    (hused : s'.used = s.used) (hcompletions : s'.completions = s.completions)
    (hexhausted : s'.exhausted = true → s.exhausted = true)
    : Dealt drawn s' := by
  have hshuffle : s'.shuffle = s.shuffle := congrArg (·.shuffle) hrewind
  have hsize : s'.size = s.size := congrArg (·.size) hrewind
  have hcount : s'.count = s.count := congrArg (·.count) hrewind
  constructor
  . rw [hshuffle, h.shuffle]
  . rw [hused, hsize]
    exact h.hands
  . rw [hcompletions, h.completions]
  . rw [hcount]
    intro hover
    exact h.exhausted (hexhausted hover)

theorem size_pos (h : Dealt drawn s) : 0 < s.size := by
  apply Nat.zero_lt_of_lt h.hands.short

theorem rewind (h : Dealt drawn s) : Dealt [] s.rewind where
  shuffle := h.shuffle
  hands := .nil h.size_pos
  completions := rfl
  exhausted := by simp [Sequence.rewind, Sequence.reset]

theorem exhausted_draw (h : Dealt drawn s) (index : Nat) (hexhausted : s.exhausted = false)
    : (s.afterDraw index).exhausted = s.count.any (max · 1 ≤ (drawn ++ [index]).length) := by
  rw [afterDraw_eq, hexhausted, Bool.false_or, h.completions, List.length_append,
    List.length_singleton]
  have hleast (least : Nat) : max least 1 ≤ drawn.length + 1 ↔ least ≤ drawn.length + 1 := by omega
  simp only [hleast]

theorem draw (h : Dealt drawn s) {index : Nat} (hlt : index < s.size) (hnew : index ∉ s.used)
    (hexhausted : s.exhausted = false)
    : Dealt (drawn ++ [index]) (s.afterDraw index) := by
  have hover := h.exhausted_draw index hexhausted
  rw [afterDraw_eq] at hover ⊢
  constructor
  . exact h.shuffle
  . exact h.hands.draw hlt hnew
  . rw [List.length_append, ← h.completions]
    rfl
  . intro hdone
    rw [← hdone, hover]

theorem next? (h : Dealt drawn s) (source : ρ) (hexhausted : s.exhausted = false)
    : let draw := s.drawIndex source
      ∃ step,
        s.steps[draw.1]? = some step
          ∧ s.next? source = some (step, s.afterDraw draw.1, draw.2) := by
  have hlt := s.drawIndex_lt source h.size_pos
  have hsteps : s.steps.isEmpty = false := by
    rw [List.isEmpty_eq_false_iff]
    exact List.length_pos_iff.mp h.size_pos
  refine ⟨_, List.getElem?_eq_getElem hlt, ?_⟩
  unfold Sequence.next? nextShuffled?
  dsimp only
  rw [hsteps, hexhausted, h.shuffle, List.getElem?_eq_getElem hlt]
  rfl

end Dealt

end Sequence

namespace Recital

open Sequence (Move Dealt)

variable {ρ : Type} [RandomSource ρ] {r : Recital ρ}

theorem next_of_exhausted (h : r.sequence.exhausted = true)
    : r.next = { r with given := r.given ++ [none] } := by
  simp [next, Sequence.next?, h]

theorem next_of_dealt (h : Dealt r.drawn r.sequence) (hexhausted : r.sequence.exhausted = false)
    : ∃ index step, index < r.sequence.size ∧ index ∉ r.sequence.used
        ∧ r.sequence.steps[index]? = some step
        ∧ (∃ asks ≤ r.sequence.size * 64,
            r.next.source = (Sequence.ask r.sequence.size)^[asks] r.source)
        ∧ r.next.sequence = r.sequence.afterDraw index
        ∧ r.next.given = r.given ++ [some step]
        ∧ r.next.drawn = r.drawn ++ [index] := by
  have hlt := r.sequence.drawIndex_lt r.source h.size_pos
  have hnew := r.sequence.drawIndex_not_mem r.source h.hands.short
  have hasks := r.sequence.drawIndex_asks r.source
  obtain ⟨step, hstep, hnext⟩ := h.next? r.source hexhausted
  refine ⟨_, step, hlt, hnew, hstep, ?_⟩
  unfold next
  rw [hnext, Sequence.afterDraw_eq]
  exact ⟨hasks, rfl, rfl, rfl⟩

theorem take_dealt (move : Move) (h : Dealt r.drawn r.sequence)
    : Dealt (r.take move).drawn (r.take move).sequence := by
  cases move with
  | next =>
    dsimp only [take]
    cases hexhausted : r.sequence.exhausted with
    | true =>
      rw [next_of_exhausted hexhausted]
      exact h
    | false =>
      obtain ⟨index, step, hlt, hnew, _, _, hsequence, _, hdrawn⟩ := next_of_dealt h hexhausted
      rw [hsequence, hdrawn]
      exact h.draw hlt hnew hexhausted
  | reset => exact h.congr rfl rfl rfl (by simp [take, Sequence.reset])
  | rewind => exact h.rewind
  | seek stepId =>
    obtain ⟨_, hcue⟩ := r.take_seek_eq stepId
    rw [hcue]
    exact h.congr rfl rfl rfl id
  | matchDate date =>
    obtain ⟨_, hcue⟩ := r.take_matchDate_eq date
    rw [hcue]
    exact h.congr rfl rfl rfl id

theorem run_dealt (moves : List Move) (h : Dealt r.drawn r.sequence)
    : Dealt (r.run moves).drawn (r.run moves).sequence := by
  induction moves generalizing r with
  | nil => exact h
  | cons move moves ih => exact ih (take_dealt move h)

theorem take_of_cue {move : Move} (hnext : .next ≠ move) (hrewind : .rewind ≠ move)
    : (r.take move).sequence.exhausted = (r.sequence.exhausted && move ≠ .reset)
        ∧ (r.take move).drawn = r.drawn
        ∧ (r.take move).given = r.given := by
  cases move with
  | next => contradiction
  | reset => exact ⟨(Bool.and_false _).symm, rfl, rfl⟩
  | rewind => contradiction
  | seek stepId =>
    obtain ⟨_, hcue⟩ := r.take_seek_eq stepId
    rw [hcue]
    exact ⟨(Bool.and_true _).symm, rfl, rfl⟩
  | matchDate date =>
    obtain ⟨_, hcue⟩ := r.take_matchDate_eq date
    rw [hcue]
    exact ⟨(Bool.and_true _).symm, rfl, rfl⟩

theorem run_of_cues {moves : List Move} (hnext : .next ∉ moves) (hrewind : .rewind ∉ moves)
    (h : r.sequence.exhausted = false)
    : (r.run moves).sequence.exhausted = false
        ∧ (r.run moves).drawn = r.drawn
        ∧ (r.run moves).given = r.given := by
  induction moves generalizing r with
  | nil => exact ⟨h, rfl, rfl⟩
  | cons move moves ih =>
    rw [List.mem_cons, not_or] at hnext hrewind
    obtain ⟨hover, hdrawn, hgiven⟩ := r.take_of_cue hnext.1 hrewind.1
    rw [h, Bool.false_and] at hover
    rw [← hdrawn, ← hgiven]
    exact ih hnext.2 hrewind.2 hover

/--
Once the count is reached no move but a reset or a rewind brings another draw.
-/
theorem take_of_exhausted {move : Move} (hreset : .reset ≠ move) (hrewind : .rewind ≠ move)
    (h : r.sequence.exhausted = true)
    : (r.take move).sequence.exhausted = true
        ∧ (r.take move).drawn = r.drawn
        ∧ (r.take move).given = r.given ++ List.replicate ([move].count .next) none := by
  by_cases hnext : .next = move
  . rw [← hnext]
    dsimp only [take]
    rw [next_of_exhausted h]
    exact ⟨h, rfl, rfl⟩
  . have hcue := r.take_of_cue hnext hrewind
    rw [hcue.1, hcue.2.1, hcue.2.2, h, List.count_singleton, if_neg (by simpa using Ne.symm hnext)]
    exact ⟨by simpa using Ne.symm hreset, rfl, (List.append_nil _).symm⟩

theorem run_of_exhausted {moves : List Move} (hreset : .reset ∉ moves) (hrewind : .rewind ∉ moves)
    (h : r.sequence.exhausted = true)
    : (r.run moves).sequence.exhausted = true
        ∧ (r.run moves).drawn = r.drawn
        ∧ (r.run moves).given = r.given ++ List.replicate (moves.count .next) none := by
  induction moves generalizing r with
  | nil => exact ⟨h, rfl, (List.append_nil _).symm⟩
  | cons move moves ih =>
    rw [List.mem_cons, not_or] at hreset hrewind
    obtain ⟨hover, hdrawn, hgiven⟩ := take_of_exhausted hreset.1 hrewind.1 h
    obtain ⟨hlast, hrest, hmore⟩ := ih hreset.2 hrewind.2 hover
    refine ⟨hlast, hrest.trans hdrawn, ?_⟩
    rw [← List.singleton_append, List.count_append, ← List.replicate_append_replicate,
      ← List.append_assoc, ← hgiven]
    exact hmore

/--
Whatever the source gives, a shuffled sequence deals its places hand by hand, and its count is
reached by its draws alone. The draws are counted from the start or the last rewind.
-/
theorem drawn_fair (id : String) (first : Step) (rest : List Step) (repeats : Bool)
    (count : Option Nat) (grouping : Option String) (source : ρ) (moves : List Move)
    : let start : Sequence :=
        { id, steps := first :: rest, repeats, count, shuffle := true, grouping }
      let r := ({ sequence := start, source } : Recital ρ).run moves
      let reaches (draws : Nat) : Bool := count.any (max · 1 ≤ draws)
      (∀ k,
          let hand := (r.drawn.drop (k * start.size)).take start.size
          hand.Nodup
            ∧ (∀ index ∈ hand, index < start.size)
            ∧ (hand.length = start.size → hand.Perm (List.range start.size)))
        ∧ (r.sequence.exhausted = false →
            ∃ index step asks,
              start.steps[index]? = some step
                ∧ r.next.given = r.given ++ [some step]
                ∧ r.next.drawn = r.drawn ++ [index]
                ∧ asks ≤ 64 * start.size
                ∧ r.next.source = (Sequence.ask start.size)^[asks] r.source
                ∧ r.next.sequence.exhausted = reaches (r.drawn.length + 1))
        ∧ (r.sequence.exhausted = true →
            reaches r.drawn.length = true
              ∧ (∀ later, .reset ∉ later → .rewind ∉ later →
                  (r.run later).sequence.exhausted = true
                    ∧ (r.run later).drawn = r.drawn
                    ∧ (r.run later).given = r.given ++ List.replicate (later.count .next) none)
              ∧ ∀ cues, .next ∉ cues → .rewind ∉ cues →
                  let again := (r.take .reset).run cues
                  again.sequence.exhausted = false
                    ∧ again.next.sequence.exhausted = true
                    ∧ ∃ index step,
                        again.next.drawn = r.drawn ++ [index]
                          ∧ again.next.given = r.given ++ [some step])
        ∧ (count = none → r.sequence.exhausted = false) := by
  intro start r reaches
  have hstart : Dealt [] start := by
    refine ⟨rfl, .nil (Nat.zero_lt_succ _), rfl, ?_⟩
    intro h
    contradiction
  have h : Dealt r.drawn r.sequence := run_dealt moves hstart
  have hsame : r.sequence.rewind = start := run_rewind moves { sequence := start, source }
  have hsize : r.sequence.size = start.size := congrArg (·.size) hsame
  have hsteps : r.sequence.steps = start.steps := congrArg (·.steps) hsame
  have hcount : r.sequence.count = count := congrArg (·.count) hsame
  refine ⟨?_, ?_, ?_, ?_⟩
  . rw [← hsize]
    exact h.hands.block
  . intro hexhausted
    obtain ⟨index, step, _, _, hstep, ⟨asks, hasks, hsource⟩, hsequence, hgiven, hdrawn⟩ :=
      next_of_dealt h hexhausted
    have hover := h.exhausted_draw index hexhausted
    rw [← hsequence, hcount, List.length_append, List.length_singleton] at hover
    rw [hsteps] at hstep
    rw [hsize, Nat.mul_comm] at hasks
    refine ⟨index, step, asks, hstep, hgiven, hdrawn, hasks, ?_, hover⟩
    rw [hsource, hsize]
  . intro hexhausted
    have hreached := h.exhausted hexhausted
    rw [hcount] at hreached
    refine ⟨hreached, ?_, ?_⟩
    . intro later hreset hrewind
      exact run_of_exhausted hreset hrewind hexhausted
    . intro cues hnext hrewind again
      obtain ⟨hopen, hdrawn, hgiven⟩ := run_of_cues (r := r.take .reset) hnext hrewind rfl
      have hagain : Dealt again.drawn again.sequence := run_dealt cues (take_dealt .reset h)
      obtain ⟨index, step, _, _, _, _, hsequence, hgave, hdrew⟩ := next_of_dealt hagain hopen
      refine ⟨hopen, ?_, index, step, ?_, ?_⟩
      . have hkept : again.sequence.count = r.sequence.count :=
          congrArg (·.count) (run_rewind cues (r.take .reset))
        rw [hsequence, hagain.exhausted_draw index hopen, hkept, hcount, hdrawn, List.length_append]
        exact Sequence.any_max_le_mono (Nat.le_add_right _ _) hreached
      . rw [hdrew, hdrawn]
        rfl
      . rw [hgave, hgiven]
        rfl
  . intro hnone
    rw [← Bool.not_eq_true]
    intro hexhausted
    have hreached := h.exhausted hexhausted
    rw [hcount, hnone] at hreached
    contradiction

end Recital

end Narrative
