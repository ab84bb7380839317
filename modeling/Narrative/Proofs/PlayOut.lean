import Narrative.Player.Session
import Narrative.Proofs.Finish
import Narrative.Proofs.Tour

/-!
This module contains automatic playback from start to end: it comes to its end, and every leaf of the
sequence has been written by then, once for each pass.
-/

namespace Narrative

namespace Player

variable {ρ : Type} [RandomSource ρ] {limit : Option Nat} {turns : Nat} {now : Instant}
variable {p : Player ρ}

theorem go_of_isOver (h : p.drain.2.isOver limit = true)
    : playOut.go limit turns now p = some (p.drain.1, p.drain.2.stop) := by
  unfold playOut.go
  exact if_pos h

theorem go_of_due (h : ¬p.drain.2.isOver limit = true) {due : Instant}
    (hdue : p.drain.2.score.nextDue? = some due) {events : List Event} {final : Player ρ}
    (hgo : playOut.go limit turns (now.max due) (p.drain.2.runDue (now.max due)).2
      = some (events, final))
    : playOut.go limit (turns + 1) now p = some (p.drain.1 ++ events, final) := by
  unfold playOut.go
  dsimp only
  rw [if_neg h, hdue]
  dsimp only
  rw [hgo]

end Player

namespace Tour

open Timeline (owed)

variable {ρ : Type} [RandomSource ρ] {t : Tour}

section

variable {written : List Step} {calls : Nat}

omit [RandomSource ρ] in
theorem On.drain {p : Player ρ} (h : t.On written calls p.score)
    : t.On (written ++ p.drain.1.map (·.step)) calls p.drain.2.score := by
  refine ⟨⟨h.sequences, h.sequenceIndex, h.queue, h.timing, h.playing, h.within, h.sound, ?_⟩,
    h.current, ⟨h.alive.ordered, h.alive.ticks⟩, h.alive.playing⟩
  rw [List.append_assoc]
  exact h.account

omit [RandomSource ρ] in
theorem On.isFinished_iff (hvalid : t.Valid) {p : Player ρ} (h : t.On written calls p.score)
    (hstarted : p.started = true)
    : p.isFinished = true ↔ calls = t.calls ∧ p.score.timeline.dispatches = [] := by
  have hcurrent : p.score.currentSequence? = some (t.first.after 0 calls) := by
    unfold Score.currentSequence?
    rw [h.current, h.sequences]
    rfl
  have hover : (t.first.after 0 calls).exhausted = true ↔ calls = t.calls := by
    rw [hvalid.exhausted_after, decide_eq_true_eq, Nat.le_antisymm_iff]
    exact (and_iff_right h.within).symm
  rw [Player.isFinished_iff, hcurrent, ← hover]
  simp [hstarted]

omit [RandomSource ρ] in
/--
All that the ticks have given is written once nothing waits.
-/
theorem On.written_perm {s : Score} (h : t.On written calls s) (hover : calls = t.calls)
    (hwaiting : s.timeline.dispatches = []) (hevents : s.events = #[])
    : written.Perm (t.given t.calls) := by
  have hnone : owed s.timeline.tasks = [] := by
    rw [← Timeline.owed_filter_isDispatch]
    change owed s.timeline.dispatches = []
    rw [hwaiting]
    rfl
  have haccount := h.account
  rw [hnone, hevents, hover, List.append_nil] at haccount
  simpa using haccount

omit [RandomSource ρ] in
theorem On.exists_due {s : Score} (h : t.On written calls s)
    : ∃ task ∈ s.timeline.tasks, s.nextDue? = some task.due := by
  cases hfirst : Timeline.earliest? s.timeline.tasks with
  | none =>
    have hplaying := h.alive.playing
    have hticks := h.alive.ticks
    unfold Timeline.ticks at hticks
    rw [Timeline.earliest?_eq_none_iff.mp hfirst] at hticks
    rw [h.playing] at hplaying
    cases hplay : s.playTask with
    | none => simp [hplay] at hplaying
    | some id => simp [hplay] at hticks
  | some task =>
    refine ⟨task, Timeline.earliest?_mem hfirst, ?_⟩
    unfold Score.nextDue? Timeline.nextDue?
    rw [hfirst]
    rfl

end

/--
The loop of automatic playback comes to its end, whatever is left of the tour.
-/
theorem go_ends (hvalid : t.Valid) {now : Instant} (hnow : now ≤ Instant.last)
    {written : List Step} {calls : Nat} {p : Player ρ} (hstarted : p.started = true)
    (h : t.On written calls p.score)
    : ∃ turns events final,
        (∀ more, turns ≤ more → Player.playOut.go none more now p = some (events, final))
          ∧ (written ++ events.map (·.step)).Perm (t.given t.calls)
          ∧ final.steps = p.steps + events.length := by
  let drained := p.drain.2
  have hdrained : t.On (written ++ p.drain.1.map (·.step)) calls drained.score := h.drain
  have hfinished := hdrained.isFinished_iff hvalid hstarted
  by_cases hend : drained.isFinished = true
  . obtain ⟨hover, hwaiting⟩ := hfinished.mp hend
    refine ⟨0, p.drain.1, drained.stop, ?_, hdrained.written_perm hover hwaiting rfl, rfl⟩
    exact fun _ _ => Player.go_of_isOver hend
  . have hleft : ¬drained.isOver none = true := hend
    obtain ⟨task, hmem, hnext⟩ := hdrained.exists_due
    have hdue : now.max task.due ≤ Instant.last := Instant.max_le hnow (hdrained.sound task hmem).due
    let ran := (drained.runDue (now.max task.due)).2
    obtain ⟨later, hlater, hless⟩ := runDue_on hvalid hdue hdrained hmem
      (Instant.le_max_right now task.due) fun hover hwaiting => hend (hfinished.mpr ⟨hover, hwaiting⟩)
    have hlater : t.On (written ++ p.drain.1.map (·.step)) later ran.score := hlater
    obtain ⟨turns, events, final, hgo, hperm, hsteps⟩ := go_ends hvalid hdue (p := ran) hstarted hlater
    refine ⟨turns + 1, p.drain.1 ++ events, final, ?_, ?_, ?_⟩
    . intro more hmore
      obtain ⟨less, rfl⟩ : ∃ less, more = less + 1 := ⟨more - 1, by omega⟩
      exact Player.go_of_due hleft hnext (hgo less (Nat.le_of_succ_le_succ hmore))
    . rw [List.map_append, ← List.append_assoc]
      exact hperm
    . rw [hsteps, List.length_append]
      exact Nat.add_assoc _ _ _
termination_by (t.work calls p.score.timeline.tasks, gap p.score.timeline)
decreasing_by
  obtain hless | ⟨hsame, hcloser⟩ := hless
  . exact Prod.Lex.left _ _ hless
  . exact Prod.lex_def.mpr (Or.inr ⟨hsame, hcloser⟩)

/--
Automatic playback that starts at the first advance of a tour.
-/
theorem playOut_ends (hvalid : t.Valid) {now : Instant} (hnow : now ≤ Instant.last) {p : Player ρ}
    (h : t.At [] 0 { p.score with playing := true }) (hpaced : p.score.Paced)
    : ∃ turns events final,
        (∀ more, turns ≤ more → p.playOut none more now = some (events, final))
          ∧ (events.map (·.step)).Perm (t.given t.calls)
          ∧ final.steps = p.steps + events.length := by
  let chosen : Performance ρ :=
    { p.performance with score := { p.score with playing := true } }
  have hpaced : chosen.score.Paced := ⟨hpaced.ordered, hpaced.ticks⟩
  have hnext := next_on (p := chosen) hvalid hnow h hpaced (Or.inl hvalid.calls_pos)
  obtain ⟨_, hon, _⟩ | ⟨hover, _⟩ := hnext
  . have hon : t.On [] (0 + 1) (p.play now).2.score := hon
    exact go_ends hvalid hnow rfl hon
  . exact absurd hover (Nat.ne_of_lt hvalid.calls_pos)

end Tour

namespace CommandLine.Config

variable {ρ : Type} [RandomSource ρ]

/--
Automatic playback of a script comes to its end, if its first sequence is played in order, with
bounded repetition, and sets no sequence going. By then it has written every leaf of the sequence,
as often as there are passes. `Instant.last` is the last instant that a clock can read.
-/
theorem playOut_player_delivers (config : Config) (text : String) (created now : Instant) (chance : ρ)
    {first : Sequence} {passes : Nat}
    (hfirst : (config.player text created chance).score.sequences[0]? = some first)
    (hsteps : first.steps ≠ [])
    (hshuffle : first.shuffle = false)
    (hpasses : first.limit? 0 = some passes)
    (hfits : ∀ step ∈ first.steps, step.Fits Performance.maxDepth)
    (htick : 1 ≤ Instant.micros (config.player text created chance).score.timing.tickMs)
    (hnow : now ≤ Instant.last)
    : ∃ turns events final,
        (∀ more, turns ≤ more →
            (config.player text created chance).playOut none more now = some (events, final))
          ∧ (events.map (·.step)).Perm
              (List.replicate passes (first.steps.flatMap Step.leaves)).flatten
          ∧ final.steps = events.length := by
  obtain ⟨parts, hopening, hauthored⟩ := config.player_eq_opening text created chance
  obtain ⟨_, timing, _, _, sequences, _, _, hassembled⟩ := Score.assembled_eq created parts
  have hscore : (config.player text created chance).score = Score.assembled created parts := by
    rw [hopening]
    rfl
  have hstarts : (config.player text created chance).steps = 0 := by
    rw [hopening]
    rfl
  generalize config.player text created chance = p at *
  rw [hassembled] at hscore
  have hsequences : sequences = first :: sequences.tail := by
    rw [hscore, ← List.head?_eq_getElem?] at hfirst
    exact List.eq_cons_of_mem_head? hfirst
  let t : Tour := { first, rest := sequences.tail, passes, timing }
  have hvalid : t.Valid :=
    { authored := hauthored first (List.mem_of_getElem? hfirst)
      shuffle := hshuffle
      steps := hsteps
      passes := hpasses
      fits := hfits
      interval := by
        rw [hscore] at htick
        exact htick }
  have hat : t.At [] 0 { p.score with playing := true } := by
    rw [hscore]
    refine ⟨?_, rfl, rfl, rfl, rfl, Nat.zero_le _, (fun _ hmem => nomatch hmem), .refl []⟩
    rw [Sequence.after_zero hvalid.authored.fresh]
    exact hsequences
  have hpaced : p.score.Paced := by
    rw [hscore]
    exact ⟨⟨.nil, fun _ hmem => nomatch hmem⟩, rfl⟩
  obtain ⟨turns, events, final, hends, hperm, hcount⟩ := Tour.playOut_ends hvalid hnow hat hpaced
  refine ⟨turns, events, final, hends, ?_, ?_⟩
  . rw [← t.given_calls]
    exact hperm
  . rw [hcount, hstarts, Nat.zero_add]

/--
A line, and a delayed group with a line in it, twice over.
-/
theorem playOut_player_delivers_group
    : let config : Config :=
        { script := "script.xml", format := .xml, delimiter := "\n", options := {}, timeScale := 1.0,
          mode := .play, maxSteps := none, seed := none, logJson := false }
      let text := "<s><sequence repeat='2'><think/><group delay='9'><sing/></group></sequence></s>"
      let player := config.player text default (SeededSource.ofSeed 0)
      ∃ turns events final,
        player.playOut none turns default = some (events, final) ∧ final.steps = 4 := by
  intro config text player
  let first := player.score.sequences[0]?.getD default
  let leaves := first.steps.flatMap Step.leaves
  obtain ⟨hfirst, hsteps, hshuffle, hpasses, hfits, htick, hlength⟩
      : player.score.sequences[0]?.isSome = true ∧ first.steps.isEmpty = false
        ∧ first.shuffle = false ∧ first.limit? 0 = some 2
        ∧ (∀ step ∈ first.steps, step.Fits Performance.maxDepth)
        ∧ 1 ≤ Instant.micros player.score.timing.tickMs
        ∧ (List.replicate 2 leaves).flatten.length = 4 := by
    decide +kernel
  have hfirst : player.score.sequences[0]? = some first := by
    obtain ⟨sequence, hsequence⟩ := Option.isSome_iff_exists.mp hfirst
    unfold first
    rw [hsequence]
    rfl
  have hsteps : first.steps ≠ [] := List.isEmpty_eq_false_iff.mp hsteps
  have hnow : (default : Instant) ≤ Instant.last := by decide
  obtain ⟨turns, events, final, hends, hperm, hcount⟩ :=
    playOut_player_delivers config text default default (SeededSource.ofSeed 0) hfirst hsteps hshuffle
      hpasses hfits htick hnow
  refine ⟨turns, events, final, hends turns (Nat.le_refl _), ?_⟩
  have hsame := hperm.length_eq
  rw [List.length_map, hlength] at hsame
  rw [hcount, hsame]

end CommandLine.Config

end Narrative
