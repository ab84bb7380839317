import Narrative.Proofs.Settle
import Narrative.Proofs.Single

/-!
This module contains the limit on the number of steps of a session. It is looked at between one batch of
events and the next, so the limit ends a session, but does not cut a batch short.
-/

namespace Narrative

theorem Score.Untouched.sparse {s : Score} (h : s.Untouched) : s.Sparse s := by
  refine ⟨h.manual.toPaced, ?_, rfl⟩
  unfold Timeline.dispatches
  rw [h.tasks]
  rfl

theorem CommandLine.Config.player_silent (config : Config) (text : String) (created : Instant)
    {ρ : Type} (chance : ρ)
    : let p := config.player text created chance
      p.score.events = #[] ∧ p.steps = 0 := by
  intro p
  obtain ⟨parts, hopening, _⟩ := config.player_eq_opening text created chance
  obtain ⟨_, _, _, _, _, _, _, hassembled⟩ := Score.assembled_eq created parts
  unfold p
  rw [hopening]
  refine ⟨?_, rfl⟩
  change (Score.assembled created parts).events = #[]
  rw [hassembled]

namespace Player

variable {ρ : Type} [RandomSource ρ]

/--
A session with what happens in it, lines of input and tasks that come due in any order. At each look
the events that occurred are written as one batch, and the session ends if it is over.
-/
def attend (limit : Option Nat) : List (Happening ρ) → Player ρ → List (List Event) × Player ρ
  | [], p => ([p.drain.1], p.drain.2)
  | happening :: happenings, p =>
    if p.drain.2.isOver limit then
      ([p.drain.1], p.drain.2)
    else
      let (later, last) := attend limit happenings (p.drain.2.perform happening.action)
      (p.drain.1 :: later, last)

variable {limit : Option Nat} {m : Nat}

theorem attend_of_isOver {p : Player ρ} (h : p.drain.2.isOver limit = true)
    (happenings : List (Happening ρ))
    : p.attend limit happenings = ([p.drain.1], p.drain.2) := by
  cases happenings with
  | nil => rfl
  | cons => exact if_pos h

theorem attend_of_not_isOver {p : Player ρ} (h : ¬p.drain.2.isOver limit = true)
    (happening : Happening ρ) (happenings : List (Happening ρ))
    : p.attend limit (happening :: happenings)
        =
      let (later, last) := (p.drain.2.perform happening.action).attend limit happenings
      (p.drain.1 :: later, last) :=
  if_neg h

theorem attend_ne_nil (happenings : List (Happening ρ)) (p : Player ρ)
    : (p.attend limit happenings).1 ≠ [] := by
  cases happenings with
  | nil => exact nofun
  | cons happening happenings =>
    unfold attend
    split
    . exact nofun
    . exact nofun

theorem perform_action_steps (happening : Happening ρ) (p : Player ρ) (h : p.score.events = #[])
    : (p.perform happening.action).steps = p.steps := by
  cases happening with
  | line clock => rfl
  | due clock => rfl
  | written =>
    change p.steps + p.score.events.toList.length = p.steps
    rw [h]
    rfl

/--
The player counts what is written.
-/
theorem attend_steps (limit : Option Nat) (happenings : List (Happening ρ)) (p : Player ρ)
    : (p.attend limit happenings).2.steps
        =
      p.steps + (p.attend limit happenings).1.flatten.length := by
  have hone (p : Player ρ) : p.drain.2.steps = p.steps + [p.drain.1].flatten.length := by
    rw [List.flatten_singleton]
    rfl
  induction happenings generalizing p with
  | nil => exact hone p
  | cons happening happenings ih =>
    by_cases hover : p.drain.2.isOver limit = true
    . rw [attend_of_isOver hover]
      exact hone p
    . rw [attend_of_not_isOver hover]
      dsimp only
      rw [ih, perform_action_steps happening _ rfl, List.flatten_cons, List.length_append,
        ← Nat.add_assoc]
      rfl

omit [RandomSource ρ] in
theorem isOver_some_iff {p : Player ρ}
    : p.isOver (some m) = true ↔ m ≤ p.steps ∨ p.isOver none = true := by
  unfold isOver limitReached
  simp

/--
With a limit of no steps the first look ends the session.
-/
theorem attend_zero (happenings : List (Happening ρ)) {p : Player ρ} (h : p.score.events = #[])
    : (p.attend (some 0) happenings).1.flatten = [] := by
  have hover : p.drain.2.isOver (some 0) = true := isOver_some_iff.mpr (Or.inl (Nat.zero_le _))
  rw [attend_of_isOver hover, List.flatten_singleton]
  change p.score.events.toList = []
  rw [h]

/--
With a limit, a session writes what it would write without one, all of it or at least as much as the
limit is.
-/
theorem attend_prefix (happenings : List (Happening ρ)) (p : Player ρ)
    : (p.attend (some m) happenings).1 <+: (p.attend none happenings).1
        ∧ (p.attend (some m) happenings = p.attend none happenings
          ∨ m ≤ (p.attend (some m) happenings).2.steps) := by
  induction happenings generalizing p with
  | nil => exact ⟨List.prefix_refl _, Or.inl rfl⟩
  | cons happening happenings ih =>
    by_cases hover : p.drain.2.isOver none = true
    . rw [attend_of_isOver hover, attend_of_isOver (isOver_some_iff.mpr (Or.inr hover))]
      exact ⟨List.prefix_refl _, Or.inl rfl⟩
    . rw [attend_of_not_isOver hover]
      by_cases hlimit : m ≤ p.drain.2.steps
      . rw [attend_of_isOver (isOver_some_iff.mpr (Or.inl hlimit))]
        exact ⟨List.cons_prefix_cons.mpr ⟨rfl, List.nil_prefix⟩, Or.inr hlimit⟩
      . have hgoes : ¬p.drain.2.isOver (some m) = true := by
          rw [isOver_some_iff]
          exact fun h => h.elim hlimit hover
        obtain ⟨hinitial, hlater⟩ := ih (p.drain.2.perform happening.action)
        rw [attend_of_not_isOver hgoes]
        refine ⟨List.cons_prefix_cons.mpr ⟨rfl, hinitial⟩, ?_⟩
        obtain hsame | hreached := hlater
        . left
          rw [hsame]
        . exact Or.inr hreached

/--
A session goes on to another batch only below the limit.
-/
theorem attend_dropLast (happenings : List (Happening ρ)) (p : Player ρ)
    : (p.attend (some m) happenings).1.dropLast = []
        ∨ p.steps + (p.attend (some m) happenings).1.dropLast.flatten.length < m := by
  induction happenings generalizing p with
  | nil => exact Or.inl rfl
  | cons happening happenings ih =>
    by_cases hover : p.drain.2.isOver (some m) = true
    . left
      rw [attend_of_isOver hover]
      rfl
    . right
      have hbelow : p.steps + p.drain.1.length < m :=
        Nat.lt_of_not_le fun hreached => hover (isOver_some_iff.mpr (Or.inl hreached))
      have hsteps := perform_action_steps happening p.drain.2 rfl
      rw [attend_of_not_isOver hover]
      dsimp only
      rw [List.dropLast_cons_of_ne_nil (attend_ne_nil _ _), List.flatten_cons, List.length_append]
      obtain hnone | hless := ih (p.drain.2.perform happening.action)
      . rw [hnone]
        exact hbelow
      . rw [hsteps] at hless
        rw [← Nat.add_assoc]
        exact hless

def Happening.dues (instants : List Instant) : List (Happening ρ) :=
  instants.map fun now => .due (Clock.held now)

/--
Automatic playback is a session in which nothing happens but that tasks are due.
-/
theorem go_eq_attend (turns : Nat) (now : Instant) {p final : Player ρ} {events : List Event}
    (h : playOut.go limit turns now p = some (events, final))
    : ∃ instants, let session := p.attend limit (Happening.dues instants)
        events = session.1.flatten ∧ final = session.2.stop := by
  induction turns generalizing now p events final with
  | zero =>
    have hends : (events, final) = (p.drain.1, p.drain.2.stop) := by
      unfold playOut.go at h
      dsimp only at h
      split at h
      . exact (Option.some.inj h).symm
      . split at h
        . exact (Option.some.inj h).symm
        . contradiction
        . contradiction
    obtain ⟨rfl, rfl⟩ := Prod.mk.inj hends
    exact ⟨[], List.flatten_singleton.symm, rfl⟩
  | succ turns ih =>
    unfold playOut.go at h
    dsimp only at h
    split at h
    . obtain ⟨rfl, rfl⟩ := Prod.mk.inj (Option.some.inj h)
      exact ⟨[], List.flatten_singleton.symm, rfl⟩
    . next hover =>
      cases hdue : p.drain.2.score.nextDue? with
      | none =>
        rw [hdue] at h
        obtain ⟨rfl, rfl⟩ := Prod.mk.inj (Option.some.inj h)
        exact ⟨[], List.flatten_singleton.symm, rfl⟩
      | some due =>
        rw [hdue] at h
        dsimp only at h
        split at h
        . contradiction
        . next later last hlater =>
          obtain ⟨rfl, rfl⟩ := Prod.mk.inj (Option.some.inj h)
          obtain ⟨instants, hevents, hfinal⟩ := ih _ hlater
          refine ⟨now.max due :: instants, ?_⟩
          unfold Happening.dues at *
          rw [List.map_cons, attend_of_not_isOver hover]
          dsimp only
          rw [List.flatten_cons, hevents, hfinal]
          exact ⟨rfl, rfl⟩

theorem settle_eq_attend {turns : Nat} {now : Instant} {p final : Player ρ} {events : List Event}
    (h : ((p.drain.2.settle turns now).map fun (later, last) => (p.drain.1 ++ later, last))
      = some (events, final))
    : ∃ requests later,
        let session := p.attend limit (List.replicate requests (.line (Clock.held now)))
        events = session.1.flatten ++ later ∧ session.2.settle turns now = some (later, final) := by
  obtain ⟨⟨later, last⟩, hsettle, hsame⟩ := Option.map_eq_some_iff.mp h
  obtain ⟨rfl, rfl⟩ := Prod.mk.inj hsame
  refine ⟨0, later, ?_, hsettle⟩
  change p.drain.1 ++ later = [p.drain.1].flatten ++ later
  rw [List.flatten_singleton]

/--
Playback on input is a session in which nothing happens but that the host asks for steps. When it is
over, the delayed steps that wait are waited for.
-/
theorem converse_eq_attend (turns : Nat) (now : Instant) (lines : List String) {p final : Player ρ}
    {events : List Event} (h : p.converse limit turns now lines = some (events, final))
    : ∃ requests later,
        let session := p.attend limit (List.replicate requests (.line (Clock.held now)))
        events = session.1.flatten ++ later ∧ session.2.settle turns now = some (later, final) := by
  induction lines generalizing p events final with
  | nil =>
    unfold converse at h
    dsimp only at h
    split at h
    . exact settle_eq_attend h
    . exact settle_eq_attend h
  | cons line lines ih =>
    unfold converse at h
    dsimp only at h
    split at h
    . exact settle_eq_attend h
    . next hover =>
      split at h
      . exact settle_eq_attend h
      . obtain ⟨⟨written, last⟩, hlater, hsame⟩ := Option.map_eq_some_iff.mp h
        obtain ⟨rfl, rfl⟩ := Prod.mk.inj hsame
        obtain ⟨requests, later, hevents, hsettle⟩ := ih hlater
        refine ⟨requests + 1, later, ?_⟩
        rw [List.replicate_succ, attend_of_not_isOver hover]
        dsimp only
        rw [List.flatten_cons, List.append_assoc, hevents]
        exact ⟨rfl, hsettle⟩

theorem settle_steps (turns : Nat) (now : Instant) {p final : Player ρ} {events : List Event}
    (h : p.settle turns now = some (events, final))
    : final.steps = p.steps + events.length := by
  induction turns generalizing now p events final with
  | zero =>
    unfold settle at h
    split at h
    . obtain ⟨rfl, rfl⟩ := Prod.mk.inj (Option.some.inj h)
      rfl
    . contradiction
    . contradiction
  | succ turns ih =>
    unfold settle at h
    cases hdue : p.score.nextDue? with
    | none =>
      rw [hdue] at h
      obtain ⟨rfl, rfl⟩ := Prod.mk.inj (Option.some.inj h)
      rfl
    | some due =>
      rw [hdue] at h
      dsimp only at h
      split at h
      . contradiction
      . next later last hlater =>
        obtain ⟨rfl, rfl⟩ := Prod.mk.inj (Option.some.inj h)
        rw [ih _ hlater, List.length_append, ← Nat.add_assoc]
        rfl

section

variable {start : Score}

omit [RandomSource ρ] in
theorem drain_sparse {p : Player ρ} (h : start.Sparse p.score) : start.Sparse p.drain.2.score :=
  ⟨⟨h.ordered, h.ticks⟩, h.waiting, h.rewound⟩

theorem perform_sparse (hsingle : start.IsSingle) (happening : Happening ρ) {p : Player ρ}
    (h : start.Sparse p.score)
    : start.Sparse (p.perform happening.action).score
        ∧ (p.perform happening.action).score.events.size ≤ p.score.events.size + 1 := by
  cases happening with
  | line clock => exact Performance.request_sparse clock hsingle h
  | due clock => exact Performance.runDue_sparse clock hsingle h
  | written => exact ⟨drain_sparse h, Nat.zero_le _⟩

/--
With single steps no batch has more than one event.
-/
theorem attend_sparse (hsingle : start.IsSingle) (happenings : List (Happening ρ)) {p : Player ρ}
    (h : start.Sparse p.score) (hevents : p.score.events.size ≤ 1)
    : (∀ batch ∈ (p.attend limit happenings).1, batch.length ≤ 1)
        ∧ start.Sparse (p.attend limit happenings).2.score := by
  have hone {p : Player ρ} (hevents : p.score.events.size ≤ 1) : p.drain.1.length ≤ 1 := hevents
  induction happenings generalizing p with
  | nil => exact ⟨List.forall_mem_singleton.mpr (hone hevents), drain_sparse h⟩
  | cons happening happenings ih =>
    by_cases hover : p.drain.2.isOver limit = true
    . rw [attend_of_isOver hover]
      exact ⟨List.forall_mem_singleton.mpr (hone hevents), drain_sparse h⟩
    . obtain ⟨hafter, hmore⟩ := perform_sparse hsingle happening (drain_sparse h)
      obtain ⟨hbatches, hlast⟩ := ih hafter hmore
      rw [attend_of_not_isOver hover]
      exact ⟨List.forall_mem_cons.mpr ⟨hone hevents, hbatches⟩, hlast⟩

theorem attend_manual (happenings : List (Happening ρ)) {p : Player ρ} (h : start.Manual p.score)
    : start.Manual (p.attend limit happenings).2.score := by
  induction happenings generalizing p with
  | nil => exact drain_manual h
  | cons happening happenings ih =>
    by_cases hover : p.drain.2.isOver limit = true
    . rw [attend_of_isOver hover]
      exact drain_manual h
    . rw [attend_of_not_isOver hover]
      exact ih (perform_manual happening (drain_manual h))

/--
With single steps nothing is left to wait for when the host plays no longer.
-/
theorem settle_of_sparse {p : Player ρ} (hmanual : start.Manual p.score) (h : start.Sparse p.score)
    (turns : Nat) (now : Instant)
    : p.settle turns now = some ([], p) := by
  have htick : p.score.playTask = none := by
    rw [← Option.not_isSome_iff_eq_none, ← hmanual.playing, hmanual.playing_eq]
    exact Bool.false_ne_true
  have hempty : p.score.timeline.tasks = [] := by
    rw [← h.tasks_eq]
    apply Timeline.ticks_eq_nil
    rw [h.ticks, htick]
    rfl
  unfold settle
  rw [nextDue?_eq_none_iff.mpr hempty]

end

/--
The player as a session begins, before anything has been written.
-/
def begin (mode : CommandLine.Mode) (clock : Clock ρ) (p : Player ρ) : Player ρ :=
  match mode with
  | .play => (p.play clock).2
  | .interactive => p

theorem begin_steps (mode : CommandLine.Mode) (clock : Clock ρ) (p : Player ρ)
    : (p.begin mode clock).steps = p.steps := by
  cases mode with
  | play => rfl
  | interactive => rfl

theorem begin_sparse {start : Score} (hsingle : start.IsSingle) (mode : CommandLine.Mode)
    (clock : Clock ρ) {p : Player ρ} (h : start.Sparse p.score)
    : start.Sparse (p.begin mode clock).score
        ∧ (p.begin mode clock).score.events.size ≤ p.score.events.size + 1 := by
  cases mode with
  | play => exact Performance.play_sparse clock hsingle h
  | interactive => exact ⟨h, Nat.le_succ _⟩

theorem length_le_of_dropLast {batches : List (List Event)} (hne : batches ≠ [])
    (hone : ∀ batch ∈ batches, batch.length ≤ 1)
    (hlast : batches.dropLast = [] ∨ batches.dropLast.flatten.length < m)
    : batches.flatten.length ≤ max m 1 := by
  have hfinal := hone _ (List.getLast_mem hne)
  have hsplit : batches.flatten.length
      = batches.dropLast.flatten.length + (batches.getLast hne).length := by
    rw [← List.length_append, ← List.flatten_concat, List.dropLast_append_getLast]
  rw [hsplit]
  obtain hnone | hless := hlast
  . rw [hnone]
    simp only [List.flatten_nil, List.length_nil]
    omega
  . omega

/--
A session with a limit begins as it would without one, and goes on to another batch of events only
below the limit. It is the loop of either mode, and in the interactive one the delayed steps that
wait then are waited for besides, which the player counts too. With single steps it writes no more
than the limit says, except that the first step of automatic playback is written in any case.
-/
theorem attend_heeds_limit (config : CommandLine.Config) (text : String) (created : Instant)
    (chance : ρ) (m : Nat) (clock : Clock ρ) (happenings : List (Happening ρ))
    : let p := config.player text created chance
      let limited := (p.begin config.mode clock).attend (some m) happenings
      let unlimited := (p.begin config.mode clock).attend none happenings
      limited.2.steps = limited.1.flatten.length
        ∧ limited.1.flatten <+: unlimited.1.flatten
        ∧ (limited = unlimited ∨ m ≤ limited.1.flatten.length)
        ∧ (limited.1.dropLast = [] ∨ limited.1.dropLast.flatten.length < m)
        ∧ (p.score.IsSingle →
            limited.1.flatten.length ≤ max m 1
              ∧ (config.mode = .interactive →
                  limited.1.flatten.length ≤ m
                    ∧ ∀ turns now, limited.2.settle turns now = some ([], limited.2)))
        ∧ (∀ turns now later final, limited.2.settle turns now = some (later, final) →
            final.steps = limited.1.flatten.length + later.length)
        ∧ (∀ turns now events final, p.playOut (some m) turns now = some (events, final) →
            final.steps = events.length
              ∧ ∃ instants,
                  events = ((p.begin .play (Clock.held now)).attend (some m)
                    (Happening.dues instants)).1.flatten)
        ∧ (∀ turns now lines events final,
            p.converse (some m) turns now lines = some (events, final) →
              final.steps = events.length
                ∧ ∃ requests later,
                    let session := (p.begin .interactive (Clock.held now)).attend (some m)
                      (List.replicate requests (.line (Clock.held now)))
                    events = session.1.flatten ++ later
                      ∧ session.2.settle turns now = some (later, final)) := by
  intro p limited unlimited
  obtain ⟨hevents, hsteps⟩ : p.score.events = #[] ∧ p.steps = 0 :=
    config.player_silent text created chance
  have huntouched : p.score.Untouched := config.player_untouched text created chance
  have hcounted (mode : CommandLine.Mode) (clock : Clock ρ) (happenings : List (Happening ρ))
      : ((p.begin mode clock).attend (some m) happenings).2.steps
        = ((p.begin mode clock).attend (some m) happenings).1.flatten.length := by
    rw [attend_steps, begin_steps, hsteps, Nat.zero_add]
  have hlast : limited.1.dropLast = [] ∨ limited.1.dropLast.flatten.length < m := by
    have hless := attend_dropLast (m := m) happenings (p.begin config.mode clock)
    rw [begin_steps, hsteps, Nat.zero_add] at hless
    exact hless
  obtain ⟨hinitial, hall⟩ := attend_prefix (m := m) happenings (p.begin config.mode clock)
  refine ⟨hcounted _ _ _, hinitial.flatten, ?_, hlast, ?_, ?_, ?_, ?_⟩
  . rw [← hcounted]
    exact hall
  . intro hsingle
    obtain ⟨hbegins, hfew⟩ := begin_sparse hsingle config.mode clock huntouched.sparse
    rw [hevents] at hfew
    obtain ⟨hbatches, hends⟩ := attend_sparse hsingle happenings hbegins hfew
    have hfits := length_le_of_dropLast (attend_ne_nil _ _) hbatches hlast
    refine ⟨hfits, ?_⟩
    intro hinteractive
    have hsession : limited = p.attend (some m) happenings := by
      unfold limited
      rw [hinteractive]
      rfl
    constructor
    . cases m with
      | zero =>
        rw [hsession, attend_zero happenings hevents]
        exact Nat.le_refl _
      | succ m =>
        apply Nat.le_trans hfits
        omega
    . intro turns now
      have hquits : p.score.Manual limited.2.score := by
        rw [hsession]
        exact attend_manual happenings huntouched.manual
      exact settle_of_sparse hquits hends turns now
  . intro turns now later final hsettle
    rw [settle_steps turns now hsettle]
    exact congrArg (· + later.length) (hcounted _ _ _)
  . intro turns now events final hplays
    obtain ⟨instants, hwritten, hfinal⟩ := go_eq_attend turns now hplays
    refine ⟨?_, instants, hwritten⟩
    rw [hfinal, hwritten]
    exact hcounted .play (Clock.held now) (Happening.dues instants)
  . intro turns now lines events final hconverses
    obtain ⟨requests, later, hwritten, hsettle⟩ := converse_eq_attend turns now lines hconverses
    have hcount := hcounted .interactive (Clock.held now)
      (List.replicate requests (.line (Clock.held now)))
    refine ⟨?_, requests, later, hwritten, hsettle⟩
    rw [settle_steps turns now hsettle, hwritten, List.length_append]
    exact congrArg (· + later.length) hcount

/--
The limit is one step. The first line asks for a group of two, of which one is delayed.
-/
theorem converse_over_limit
    : let config : CommandLine.Config :=
        { script := "script.xml", format := .xml, delimiter := "\n", options := {}, timeScale := 1.0,
          mode := .interactive, maxSteps := some 1, seed := none, logJson := false }
      let text := "<s><sequence><group><narrate>a</narrate><narrate delay='1'>b</narrate></group></sequence></s>"
      let p := config.player text default (SeededSource.ofSeed 0)
      ∃ events final, p.converse config.maxSteps 1 default [""] = some (events, final)
        ∧ final.steps = 2 ∧ events.length = 2 := by
  intro config text p
  have hwritten : (p.converse config.maxSteps 1 default [""]).map (fun written =>
      (written.2.steps, written.1.length)) = some (2, 2) := by
    decide +kernel
  obtain ⟨⟨events, final⟩, hconverse, hcount⟩ := Option.map_eq_some_iff.mp hwritten
  obtain ⟨hsteps, hevents⟩ := Prod.mk.inj hcount
  exact ⟨events, final, hconverse, hsteps, hevents⟩

end Player

end Narrative
