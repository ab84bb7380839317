import Mathlib.Data.Nat.Init
import Narrative.Proofs.Ordered

/-!
This module contains the course of a sequence that is played in order: which step each advance
gives, and how many passes there are before it stops.
-/

namespace Narrative

namespace Sequence

/--
The number of passes at which a sequence stops that starts to play with `base` passes behind it, if
it stops at all.
-/
def limit? (s : Sequence) (base : Nat) : Option Nat :=
  if s.repeats then s.count.map (max · (base + 1)) else some (base + 1)

def goesOn (s : Sequence) (base passes : Nat) : Bool :=
  (s.limit? base).all (passes < ·)

def playing (s : Sequence) (passes place : Nat) : Sequence :=
  match place with
  | 0 => s.rewind.withPasses passes
  | index + 1 => (s.rewind.withPasses passes).moveTo index

/--
The sequence after `calls` advances from the start of the pass that follows `base` passes.
-/
def after (s : Sequence) (base calls : Nat) : Sequence :=
  let passes := base + calls / s.size
  if s.goesOn base passes then s.playing passes (calls % s.size)
  else (s.playing ((s.limit? base).getD passes) s.size).halt

def answer (s : Sequence) (base call : Nat) : Option Step :=
  if s.goesOn base (base + call / s.size) then s.steps[call % s.size]? else none

theorem goesOn_base (s : Sequence) (base : Nat) : s.goesOn base base = true := by
  unfold goesOn limit?
  cases s.repeats with
  | false => simp
  | true =>
    cases s.count with
    | none => simp
    | some count =>
      simp only [if_true, Option.map_some, Option.all_some, decide_eq_true_eq]
      omega

theorem goesOn_succ (s : Sequence) {base passes : Nat} (h : base ≤ passes)
    : s.goesOn base (passes + 1)
        =
      (s.repeats && !(s.withPasses (passes + 1)).isSpent) := by
  unfold goesOn limit? isSpent withPasses
  cases s.repeats with
  | false => simp [h]
  | true =>
    cases s.count with
    | none => simp
    | some count =>
      simp only [if_true, Option.map_some, Option.all_some, Bool.true_and, ← decide_not,
        decide_eq_decide]
      omega

theorem goesOn_of_le {s : Sequence} {base passes more : Nat} (hmore : passes ≤ more)
    (h : s.goesOn base more = true)
    : s.goesOn base passes = true := by
  unfold goesOn at *
  cases hlimit : s.limit? base with
  | none => simp
  | some limit =>
    simp only [hlimit, Option.all_some, decide_eq_true_eq] at *
    omega

theorem limit?_eq {s : Sequence} {base passes : Nat} (h : s.goesOn base passes = true)
    (hlast : s.goesOn base (passes + 1) = false)
    : s.limit? base = some (passes + 1) := by
  unfold goesOn at *
  cases hlimit : s.limit? base with
  | none => simp [hlimit] at hlast
  | some limit =>
    simp only [hlimit, Option.all_some, decide_eq_true_eq, decide_eq_false_iff_not] at *
    congr
    omega

theorem nextIndex_playing (s : Sequence) (passes place : Nat)
    : (s.playing passes place).nextIndex = place := by
  cases place <;> rfl

theorem playing_withPasses (s : Sequence) (passes place more : Nat)
    : (s.playing passes place).withPasses more = s.playing more place := by
  cases place <;> rfl

theorem playing_reset (s : Sequence) (passes place : Nat)
    : (s.playing passes place).reset = s.playing passes 0 := by
  cases place <;> rfl

theorem playing_coherent {s : Sequence} (hshuffle : s.shuffle = false) (passes : Nat)
    : (s.playing passes 0).Coherent where
  shuffle := hshuffle
  completed := by simp [playing, withPasses, rewind, reset]
  spent := by simp [playing, withPasses, rewind, reset]
  paused := by simp [playing, withPasses, rewind, reset]

theorem playing_moveTo (s : Sequence) (passes place index : Nat)
    : (s.playing passes place).moveTo index = s.playing passes (index + 1) := by
  cases place <;> rfl

theorem playing_isSpent (s : Sequence) (passes place : Nat)
    : (s.playing passes place).isSpent = (s.withPasses passes).isSpent := by
  cases place <;> rfl

theorem endPass_playing (s : Sequence) {base passes : Nat} (place : Nat) (h : base ≤ passes)
    : (s.playing passes place).endPass
        =
      if s.goesOn base (passes + 1) then s.playing (passes + 1) 0
      else (s.playing (passes + 1) place).halt := by
  have hcompletions : (s.playing passes place).completions = passes := by
    cases place <;> rfl
  have hrepeats : (s.playing passes place).repeats = s.repeats := by
    cases place <;> rfl
  have hexhausted : (s.playing passes place).exhausted = false := by
    cases place <;> rfl
  rw [endPass_eq hexhausted, s.goesOn_succ h, hcompletions, hrepeats]
  dsimp only
  rw [playing_withPasses, playing_isSpent, playing_reset]

theorem advanced_playing (s : Sequence) {base passes place : Nat} (hbase : base ≤ passes)
    (hplace : place < s.size)
    : (s.playing passes place).advanced
        =
      if place + 1 < s.size then s.playing passes (place + 1)
      else if s.goesOn base (passes + 1) then s.playing (passes + 1) 0
      else (s.playing (passes + 1) s.size).halt := by
  have hsize : (s.playing passes place).size = s.size := by
    cases place <;> rfl
  unfold advanced
  rw [nextIndex_playing, playing_moveTo, hsize]
  dsimp only
  by_cases hbelow : place + 1 < s.size
  . rw [if_neg (by omega), if_pos hbelow]
  . have hlast : place + 1 = s.size := by omega
    rw [if_pos (by omega), if_neg hbelow, hlast, s.endPass_playing s.size hbase]

theorem after_of_goesOn {s : Sequence} {base calls : Nat}
    (h : s.goesOn base (base + calls / s.size) = true)
    : s.after base calls = s.playing (base + calls / s.size) (calls % s.size) := by
  unfold after
  dsimp only
  rw [if_pos h]

theorem after_zero {s : Sequence} (hfresh : s.rewind = s) : s.after 0 0 = s := by
  rw [after_of_goesOn (by rw [Nat.zero_div, goesOn_base]), Nat.zero_div, Nat.zero_mod]
  exact hfresh

theorem after_of_not_goesOn {s : Sequence} {base calls : Nat}
    (h : s.goesOn base (base + calls / s.size) = false)
    : ∃ limit, s.limit? base = some limit ∧ s.after base calls = (s.playing limit s.size).halt := by
  unfold after
  dsimp only
  rw [h]
  unfold goesOn at h
  cases hlimit : s.limit? base with
  | none => simp [hlimit] at h
  | some limit => exact ⟨limit, rfl, rfl⟩

theorem after_succ_of_goesOn {s : Sequence} {base calls : Nat} (hsize : 0 < s.size)
    (h : s.goesOn base (base + calls / s.size) = true)
    : s.after base (calls + 1) = (s.after base calls).advanced := by
  have hplace := Nat.mod_lt calls hsize
  have hcalls := Nat.mod_add_div calls s.size
  rw [after_of_goesOn h, s.advanced_playing (Nat.le_add_right base _) hplace]
  by_cases hwithin : calls % s.size + 1 < s.size
  . have hsucc : (calls + 1) / s.size = calls / s.size
        ∧ (calls + 1) % s.size = calls % s.size + 1 := by
      rw [Nat.div_mod_unique hsize]
      omega
    unfold after
    rw [if_pos hwithin, hsucc.1, hsucc.2]
    simp [h]
  . have hsucc : (calls + 1) / s.size = calls / s.size + 1 ∧ (calls + 1) % s.size = 0 := by
      rw [Nat.div_mod_unique hsize, Nat.mul_succ]
      omega
    unfold after
    rw [if_neg hwithin, hsucc.1, hsucc.2, ← Nat.add_assoc]
    cases hmore : s.goesOn base (base + calls / s.size + 1) with
    | true => simp [hmore]
    | false => simp [hmore, limit?_eq h hmore]

theorem after_succ_of_not_goesOn {s : Sequence} {base calls : Nat}
    (h : s.goesOn base (base + calls / s.size) = false)
    : s.after base (calls + 1) = s.after base calls := by
  have hmore : s.goesOn base (base + (calls + 1) / s.size) = false := by
    have := Nat.div_le_div_right (c := s.size) (Nat.le_add_right calls 1)
    rw [← Bool.not_eq_true]
    intro hgoes
    rw [goesOn_of_le (by omega) hgoes] at h
    contradiction
  obtain ⟨limit, hlimit, hafter⟩ := after_of_not_goesOn h
  obtain ⟨_, hlimit', hafter'⟩ := after_of_not_goesOn hmore
  rw [hafter, hafter', Option.some.inj (hlimit'.symm.trans hlimit)]

theorem goesOn_iff_lt {s : Sequence} {base limit : Nat} (h : s.limit? base = some limit)
    (passes : Nat)
    : s.goesOn base passes = decide (passes < limit) := by
  unfold goesOn
  rw [h, Option.all_some]

theorem not_goesOn_div_iff {s : Sequence} (hsize : 0 < s.size) {base calls : Nat}
    : s.goesOn base (calls / s.size) = false
        ↔
      ∃ limit, s.limit? base = some limit ∧ limit * s.size ≤ calls := by
  cases hlimit : s.limit? base with
  | none => simp [goesOn, hlimit]
  | some limit =>
    rw [goesOn_iff_lt hlimit, decide_eq_false_iff_not, Nat.not_lt, Nat.le_div_iff_mul_le hsize]
    simp

theorem after_completions (s : Sequence) (base calls : Nat)
    : (s.after base calls).completions
        =
      match s.limit? base with
      | none => base + calls / s.size
      | some limit => min (base + calls / s.size) limit := by
  have hplaying (passes place : Nat) : (s.playing passes place).completions = passes := by
    cases place <;> rfl
  cases hgoes : s.goesOn base (base + calls / s.size) with
  | true =>
    rw [after_of_goesOn hgoes, hplaying]
    cases hlimit : s.limit? base with
    | none => rfl
    | some limit =>
      rw [goesOn_iff_lt hlimit, decide_eq_true_iff] at hgoes
      exact (Nat.min_eq_left (Nat.le_of_lt hgoes)).symm
  | false =>
    obtain ⟨limit, hlimit, hafter⟩ := after_of_not_goesOn hgoes
    rw [goesOn_iff_lt hlimit, decide_eq_false_iff_not, Nat.not_lt] at hgoes
    rw [hafter, hlimit]
    exact (hplaying limit s.size).trans (Nat.min_eq_right hgoes).symm

theorem after_completed (s : Sequence) (base calls : Nat)
    : (s.after base calls).completed = !s.goesOn base (base + calls / s.size) := by
  cases hgoes : s.goesOn base (base + calls / s.size) with
  | true =>
    rw [after_of_goesOn hgoes]
    cases calls % s.size <;> rfl
  | false =>
    obtain ⟨_, _, hafter⟩ := after_of_not_goesOn hgoes
    rw [hafter]
    rfl

theorem after_exhausted (s : Sequence) (base calls : Nat)
    : (s.after base calls).exhausted
        =
      (!s.goesOn base (base + calls / s.size)
        && (s.repeats || (s.withPasses (base + 1)).isSpent)) := by
  cases hgoes : s.goesOn base (base + calls / s.size) with
  | true =>
    rw [after_of_goesOn hgoes]
    cases calls % s.size <;> rfl
  | false =>
    obtain ⟨limit, hlimit, hafter⟩ := after_of_not_goesOn hgoes
    have hspent : (s.playing limit s.size).halt.exhausted = (s.withPasses limit).isSpent :=
      s.playing_isSpent limit s.size
    rw [hafter, hspent]
    unfold limit? at hlimit
    cases hrepeats : s.repeats with
    | true =>
      -- a repeating sequence stops at its count only
      rw [hrepeats, if_pos rfl, Option.map_eq_some_iff] at hlimit
      obtain ⟨count, hcount, hmax⟩ := hlimit
      have hleast : count ≤ limit := by omega
      simp [isSpent, withPasses, hcount, hleast]
    | false =>
      rw [hrepeats, if_neg Bool.false_ne_true, Option.some.injEq] at hlimit
      rw [hlimit]
      rfl

theorem after_reset (s : Sequence) (base calls : Nat)
    : (s.after base calls).reset = s.playing (s.after base calls).completions 0 := by
  unfold after
  dsimp only
  split
  . cases calls % s.size <;> rfl
  . cases s.size <;> rfl

theorem after_rewind (s : Sequence) (base calls : Nat)
    : (s.after base calls).rewind = s.rewind := by
  unfold after
  dsimp only
  split
  . cases calls % s.size <;> rfl
  . cases s.size <;> rfl

theorem limit?_of_not_repeats {s : Sequence} (h : s.repeats = false) (base : Nat)
    : s.limit? base = some (base + 1) := by
  unfold limit?
  rw [h]
  rfl

theorem after_completions_of_not_repeats {s : Sequence} (hsize : 0 < s.size)
    (h : s.repeats = false) (base calls : Nat)
    : (s.after base calls).completions = base + if s.size ≤ calls then 1 else 0 := by
  rw [after_completions, limit?_of_not_repeats h]
  dsimp only
  split
  . next hpass =>
    have := Nat.div_pos hpass hsize
    apply Nat.min_eq_right
    omega
  . next hpass =>
    rw [Nat.div_eq_of_lt (Nat.not_le.mp hpass)]
    apply Nat.min_eq_left
    omega

theorem after_completed_of_not_repeats {s : Sequence} (hsize : 0 < s.size)
    (h : s.repeats = false) (base calls : Nat)
    : (s.after base calls).completed = decide (s.size ≤ calls) := by
  rw [after_completed, goesOn_iff_lt (limit?_of_not_repeats h base), ← decide_not,
    decide_eq_decide, Nat.not_lt, Nat.add_le_add_iff_left, Nat.le_div_iff_mul_le hsize, Nat.one_mul]

theorem after_exhausted_of_not_repeats {s : Sequence} (hsize : 0 < s.size)
    (h : s.repeats = false) (base calls : Nat)
    : (s.after base calls).exhausted
        =
      (decide (s.size ≤ calls) && s.count.all (· ≤ (s.after base calls).completions)) := by
  rw [after_exhausted, ← after_completed, after_completed_of_not_repeats hsize h,
    after_completions_of_not_repeats hsize h, h, Bool.false_or,
    isSpent_of_not_repeats (s := s.withPasses (base + 1)) h]
  by_cases hpass : s.size ≤ calls
  . rw [if_pos hpass]
    rfl
  . simp [hpass]

theorem over_after_pass_iff (s : Sequence)
    : (s.repeats || (s.withPasses 1).isSpent) = true
        ↔
      (s.repeats = false → ∀ least, s.count = some least → least < 2) := by
  cases hrepeats : s.repeats with
  | true => simp
  | false =>
    have hspent : (s.withPasses 1).isSpent = s.count.all (· ≤ 1) := isSpent_of_not_repeats hrepeats
    rw [Bool.false_or, hspent, Option.all_eq_true]
    have hleast (least : Nat) : decide (least ≤ 1) = true ↔ least < 2 := by
      rw [decide_eq_true_iff, Nat.lt_succ_iff]
    constructor
    . intro hreached _ least hcount
      exact (hleast least).mp (hreached least hcount)
    . intro hreached least hcount
      exact (hleast least).mpr (hreached rfl least hcount)

theorem answer_of_not_repeats {s : Sequence} (h : s.repeats = false) (base call : Nat)
    : s.answer base call = s.steps[call]? := by
  unfold answer
  rw [goesOn_iff_lt (limit?_of_not_repeats h base)]
  by_cases hcall : call < s.size
  . simp [Nat.div_eq_of_lt hcall, Nat.mod_eq_of_lt hcall]
  . have hnone : s.steps[call]? = none := List.getElem?_eq_none (Nat.not_lt.mp hcall)
    rw [hnone]
    cases hsize : s.size with
    | zero =>
      have hempty : s.steps = [] := List.length_eq_zero_iff.mp hsize
      simp [hempty]
    | succ last =>
      have := Nat.div_pos (Nat.not_lt.mp hcall) (by omega)
      rw [hsize] at this
      rw [if_neg]
      simp
      omega

end Sequence

namespace Recital

variable {ρ : Type} [RandomSource ρ]

theorem next_after {s : Sequence} {base calls : Nat} (hsize : 0 < s.size) {r : Recital ρ}
    (h : r.sequence.Coherent) (hr : r.sequence = s.after base calls)
    : r.next.sequence = s.after base (calls + 1)
        ∧ r.next.given = r.given ++ [s.answer base calls] := by
  rw [next_sequence h, next_given h, hr]
  unfold Sequence.answer
  cases hgoes : s.goesOn base (base + calls / s.size) with
  | true =>
    have hplace := Nat.mod_lt calls hsize
    have hexhausted : (s.after base calls).exhausted = false := by
      rw [Sequence.after_of_goesOn hgoes]
      cases calls % s.size <;> rfl
    have hsteps : (s.after base calls).steps = s.steps := by
      rw [Sequence.after_of_goesOn hgoes]
      cases calls % s.size <;> rfl
    have hnext : (s.after base calls).nextIndex = calls % s.size := by
      rw [Sequence.after_of_goesOn hgoes, Sequence.nextIndex_playing]
    have hleft : ¬((s.after base calls).exhausted = true
        ∨ (s.after base calls).size ≤ (s.after base calls).nextIndex) := by
      unfold Sequence.size at *
      simp [hexhausted, hsteps, hnext, hplace]
    rw [if_neg hleft, hexhausted, hsteps, hnext, Sequence.after_succ_of_goesOn hsize hgoes]
    exact ⟨rfl, rfl⟩
  | false =>
    obtain ⟨limit, _, hafter⟩ := Sequence.after_of_not_goesOn hgoes
    have hnext : (s.after base calls).nextIndex = s.size := by
      rw [hafter]
      exact s.nextIndex_playing limit s.size
    have hsteps : (s.after base calls).steps = s.steps := by
      rw [hafter]
      cases s.size <;> rfl
    have hover : (s.after base calls).size ≤ (s.after base calls).nextIndex := by
      rw [hnext]
      exact Nat.le_of_eq (congrArg List.length hsteps)
    rw [if_pos (Or.inr hover), Sequence.after_succ_of_not_goesOn hgoes, hnext, hsteps]
    simp [Sequence.size]

theorem run_after {s : Sequence} (base calls : Nat) (hsize : 0 < s.size) {r : Recital ρ}
    (h : r.sequence.Coherent) (hr : r.sequence = s.playing base 0)
    : (r.run (.replicate calls .next)).sequence = s.after base calls
        ∧ (r.run (.replicate calls .next)).given
          = r.given ++ (List.range calls).map (s.answer base) := by
  induction calls with
  | zero =>
    have hstart : s.after base 0 = s.playing base 0 := by
      rw [Sequence.after_of_goesOn]
      . simp
      . simpa using s.goesOn_base base
    rw [hstart]
    exact ⟨hr, (List.append_nil _).symm⟩
  | succ calls ih =>
    have hnext := next_after hsize (run_coherent (.replicate calls .next) h) ih.1
    rw [List.replicate_succ', run_concat]
    dsimp only [take]
    rw [hnext.1, hnext.2, ih.2, List.range_succ, List.map_append, List.append_assoc]
    exact ⟨rfl, rfl⟩

theorem after_coherent {s : Sequence} (base calls : Nat) (hsize : 0 < s.size) (h : s.Coherent)
    : (s.after base calls).Coherent := by
  let r : Recital SeededSource := { sequence := s.playing base 0, source := .ofSeed 0 }
  have hr : r.sequence.Coherent := Sequence.playing_coherent h.shuffle base
  rw [← (run_after base calls hsize hr rfl).1]
  exact run_coherent _ hr

theorem next?_after {s : Sequence} {base calls : Nat} (hsize : 0 < s.size) (h : s.Coherent)
    (hgoes : s.goesOn base (base + calls / s.size) = true) (source : ρ)
    : ∃ step, s.steps[calls % s.size]? = some step
        ∧ (s.after base calls).next? source = some (step, s.after base (calls + 1), source) := by
  have hplace := Nat.mod_lt calls hsize
  have hget : s.steps[calls % s.size]? = some s.steps[calls % s.size] :=
    List.getElem?_eq_getElem hplace
  have hexhausted : (s.after base calls).exhausted = false := by
    rw [Sequence.after_exhausted, hgoes]
    rfl
  have hsteps : (s.after base calls).steps = s.steps := by
    rw [Sequence.after_of_goesOn hgoes]
    cases calls % s.size <;> rfl
  have hnext : (s.after base calls).nextIndex = calls % s.size := by
    rw [Sequence.after_of_goesOn hgoes, Sequence.nextIndex_playing]
  refine ⟨_, hget, ?_⟩
  rw [(after_coherent base calls hsize h).next?_eq, hexhausted, hsteps, hnext, hget,
    Sequence.after_succ_of_goesOn hsize hgoes]
  rfl

theorem run_rounds {s : Sequence} (base : Nat) (rounds : List Nat) (hsize : 0 < s.size)
    (hrepeats : s.repeats = false) {r : Recital ρ} (h : r.sequence.Coherent)
    (hr : r.sequence = s.playing base 0)
    : let moves := rounds.flatMap fun calls => .replicate calls .next ++ [.reset]
      (r.run moves).sequence = s.playing (base + rounds.countP (s.size ≤ ·)) 0
        ∧ (r.run moves).given
          = r.given ++ rounds.flatMap fun calls => (List.range calls).map (s.steps[·]?) := by
  induction rounds generalizing base r with
  | nil => exact ⟨hr, (List.append_nil _).symm⟩
  | cons calls rounds ih =>
    let moves : List Sequence.Move := .replicate calls .next ++ [.reset]
    have hround := run_after base calls hsize h hr
    have hsequence : (r.run moves).sequence
        = s.playing (base + if s.size ≤ calls then 1 else 0) 0 := by
      rw [run_concat]
      dsimp only [take]
      rw [hround.1, Sequence.after_reset,
        Sequence.after_completions_of_not_repeats hsize hrepeats]
    have hgiven : (r.run moves).given = r.given ++ (List.range calls).map (s.steps[·]?) := by
      rw [run_concat]
      dsimp only [take]
      rw [hround.2, funext (Sequence.answer_of_not_repeats hrepeats base)]
    have hrest := ih _ (run_coherent moves h) hsequence
    dsimp only at hrest ⊢
    rw [List.flatMap_cons, run_append, hrest.1, hrest.2, hgiven, List.countP_cons,
      List.flatMap_cons, List.append_assoc]
    refine ⟨?_, rfl⟩
    simp only [decide_eq_true_eq]
    rw [Nat.add_assoc, Nat.add_comm (List.countP _ _)]

/--
What the advances of a sequence that is played in order give: its steps one after another, pass by
pass. A sequence that does not repeat stops after a pass, and goes on with one more after each
reset.
-/
theorem given_eq_map_range (id : String) (first : Step) (rest : List Step) (repeats : Bool)
    (count : Option Nat) (grouping : Option String) (source : ρ) (calls : Nat) (rounds : List Nat)
    : let start : Sequence := { id, steps := first :: rest, repeats, count, grouping }
      let opening : Recital ρ := { sequence := start, source }
      let passes? : Option Nat := if repeats then count.map (max · 1) else some 1
      let played := opening.run (.replicate calls .next)
      let turns := rounds.flatMap fun calls => .replicate calls .next ++ [.reset]
      let replayed := opening.run (turns ++ .replicate calls .next)
      played.given
          = (List.range calls).map (fun call =>
              if passes?.all (call < · * start.size) then start.steps[call % start.size]? else none)
        ∧ played.sequence.completions
          = (match passes? with
            | none => calls / start.size
            | some passes => min (calls / start.size) passes)
        ∧ (played.sequence.completed = true
            ↔ ∃ passes, passes? = some passes ∧ passes * start.size ≤ calls)
        ∧ (played.sequence.exhausted = true
            ↔ (∃ passes, passes? = some passes ∧ passes * start.size ≤ calls)
              ∧ (repeats = false → ∀ least, count = some least → least < 2))
        ∧ (repeats = false →
            replayed.given
                = (rounds ++ [calls]).flatMap (fun calls =>
                    (List.range calls).map (start.steps[·]?))
              ∧ replayed.sequence.completions = (rounds ++ [calls]).countP (start.size ≤ ·)
              ∧ (replayed.sequence.completed = true ↔ start.size ≤ calls)
              ∧ (replayed.sequence.exhausted = true
                  ↔ start.size ≤ calls
                    ∧ ∀ least, count = some least → least ≤ replayed.sequence.completions)) := by
  intro start opening passes? played turns replayed
  have hsize : 0 < start.size := Nat.zero_lt_succ _
  have hstart : start.Coherent := ⟨rfl, by simp [start], by simp [start], by simp [start]⟩
  have hplayed := run_after 0 calls hsize (r := opening) hstart rfl
  have hover : start.goesOn 0 (calls / start.size) = false
      ↔ ∃ passes, passes? = some passes ∧ passes * start.size ≤ calls :=
    Sequence.not_goesOn_div_iff hsize
  refine ⟨?_, ?_, ?_, ?_, ?_⟩
  . have hanswer (call : Nat) : start.answer 0 call
          = if passes?.all (call < · * start.size) then start.steps[call % start.size]?
            else none := by
      unfold Sequence.answer Sequence.goesOn
      simp only [Nat.zero_add, Nat.div_lt_iff_lt_mul hsize]
      rfl
    rw [hplayed.2, funext hanswer]
    rfl
  . rw [hplayed.1, Sequence.after_completions, Nat.zero_add]
    rfl
  . rw [hplayed.1, Sequence.after_completed, Nat.zero_add, Bool.not_eq_true', hover]
  . rw [hplayed.1, Sequence.after_exhausted, Nat.zero_add, Bool.and_eq_true, Bool.not_eq_true',
      hover, and_congr_right_iff]
    intro _
    exact start.over_after_pass_iff
  . intro hrepeats
    have hturns := run_rounds 0 rounds hsize hrepeats (r := opening) hstart rfl
    have hreplayed := run_after _ calls hsize (run_coherent turns hstart) hturns.1
    have hsame : replayed = (opening.run turns).run (.replicate calls .next) := run_append _ _ _
    rw [← hsame] at hreplayed
    have hcount : replayed.sequence.completions = (rounds ++ [calls]).countP (start.size ≤ ·) := by
      rw [hreplayed.1, Sequence.after_completions_of_not_repeats hsize hrepeats, Nat.zero_add,
        List.countP_append, List.countP_singleton]
      simp only [decide_eq_true_eq]
    refine ⟨?_, hcount, ?_, ?_⟩
    . rw [hreplayed.2, hturns.2, funext (Sequence.answer_of_not_repeats hrepeats _)]
      simp [opening]
    . rw [hreplayed.1, Sequence.after_completed_of_not_repeats hsize hrepeats, decide_eq_true_iff]
    . rw [hreplayed.1, Sequence.after_exhausted_of_not_repeats hsize hrepeats, Bool.and_eq_true,
        decide_eq_true_iff, Option.all_eq_true]
      simp [start]

end Recital

end Narrative
