import Narrative.Proofs.Balance
import Narrative.Proofs.Coupling
import Narrative.Proofs.Stall

/-!
This module contains how far one call of a host can go. Sequences may set one another going in a circle,
but without groups each step sets going one other at most, so the limit on depth bounds the whole chain.
-/

namespace Narrative

/--
A performance and the advances that led to it, each with the sequence that was advanced and the step
that it gave. Otherwise a trail is carried on like the performance itself.
-/
structure Trail (ρ : Type) where
  performance : Performance ρ
  advances : List (Nat × Option Step) := []

namespace Call

variable {ρ : Type} [RandomSource ρ]

/--
The sequence that is advanced for the call itself.
-/
def opens? (call : Call) (s : Score) : Option Nat :=
  match call with
  | .next => s.choose.current.filter fun index => !s.choose.isExhausted index
  | .playSequence id => (s.findSequence id).toOption
  | .setSequence id _ autoStart => if autoStart then (s.findSequence id).toOption else none

def lead (call : Call) (s : Score) : Score :=
  match call with
  | .next => s.choose
  | .playSequence id => ((s.findSequence id).toOption.map s.enqueue).getD s
  | .setSequence id atDate _ => ((s.findSequence id).toOption.map (s.select · atDate)).getD s

def close (clock : Clock ρ) (call : Call) (p : Performance ρ) : Performance ρ :=
  match call with
  | .next => if p.score.playing then p.scheduleTick clock else p
  | _ => p

end Call

namespace Trail

variable {ρ : Type} [RandomSource ρ]

abbrev Firing (ρ : Type) :=
  (sequenceId : String) → Step → Trail ρ → Trail ρ

def execute (clock : Clock ρ) (fire : Firing ρ) : Firing ρ :=
  fun sequenceId step t =>
    if step.isDelayed then
      { t with performance := t.performance.postpone clock sequenceId step }
    else
      fire sequenceId step t

def carryOut (clock : Clock ρ) : Firing ρ :=
  fun sequenceId step t =>
    { t with performance := t.performance.carryOut clock sequenceId step }

def advance (clock : Clock ρ) (fire : Firing ρ) (index : Nat) (t : Trail ρ) : Trail ρ :=
  match t.performance.draw? index with
  | none => { t with advances := t.advances ++ [(index, none)] }
  | some (sequenceId, step, drawn) =>
    execute clock fire sequenceId step ⟨drawn, t.advances ++ [(index, some step)]⟩

def dispatch (clock : Clock ρ) : (room : Nat) → Firing ρ
  | 0, _, _, t => t
  | room + 1, sequenceId, step, t =>
    if step.isGroup then
      step.substeps.foldl
        (fun t substep => execute clock (dispatch clock room) sequenceId substep t) t
    else
      match step.starts? with
      | none => carryOut clock sequenceId step t
      | some index =>
        advance clock (dispatch clock room) index (carryOut clock sequenceId step t)

def led (call : Call) (p : Performance ρ) : Trail ρ :=
  { performance := { p with score := call.lead p.score } }

def opened (clock : Clock ρ) (call : Call) (p : Performance ρ) : Trail ρ :=
  match call.opens? p.score with
  | none => led call p
  | some index => advance clock (dispatch clock Performance.maxDepth) index (led call p)

def answer (clock : Clock ρ) (call : Call) (p : Performance ρ) : Trail ρ :=
  let t := opened clock call p
  { t with performance := call.close clock t.performance }

section

variable (clock : Clock ρ)

omit [RandomSource ρ] in
theorem execute_performance {fire : Firing ρ} {fire' : Performance.Firing ρ}
    (hfire : ∀ sequenceId step (t : Trail ρ),
      (fire sequenceId step t).performance = fire' sequenceId step t.performance)
    (sequenceId : String) (step : Step) (t : Trail ρ)
    : (execute clock fire sequenceId step t).performance
        = Performance.execute clock fire' sequenceId step t.performance := by
  unfold execute Performance.execute
  split
  . rfl
  . exact hfire sequenceId step t

theorem advance_performance {fire : Firing ρ} {fire' : Performance.Firing ρ}
    (hfire : ∀ sequenceId step (t : Trail ρ),
      (fire sequenceId step t).performance = fire' sequenceId step t.performance)
    (index : Nat) (t : Trail ρ)
    : (advance clock fire index t).performance = (t.performance.advance clock fire' index).2 := by
  rw [Performance.advance_eq]
  unfold advance
  cases t.performance.draw? index with
  | none => rfl
  | some => exact execute_performance clock hfire _ _ _

theorem dispatch_performance (room : Nat) (sequenceId : String) (step : Step) (t : Trail ρ)
    : (dispatch clock room sequenceId step t).performance
        = Performance.dispatch clock room sequenceId step t.performance := by
  induction room generalizing sequenceId step t with
  | zero => rfl
  | succ room ih =>
    unfold dispatch
    cases hgroup : step.isGroup with
    | true =>
      rw [Performance.dispatch_group _ _ _ _ _ hgroup, if_pos rfl]
      generalize step.substeps = substeps
      induction substeps generalizing t with
      | nil => rfl
      | cons substep substeps ihs =>
        rw [List.foldl_cons, List.foldl_cons, ihs, execute_performance clock ih]
    | false =>
      rw [Performance.dispatch_single _ _ _ _ _ hgroup, if_neg Bool.false_ne_true]
      cases step.starts? with
      | none => rfl
      | some index => exact advance_performance clock ih index _

/--
The trail of a call ends where the call does.
-/
theorem answer_performance (call : Call) (p : Performance ρ)
    : (answer clock call p).performance = (p.answer clock call).2 := by
  have hadvance (index : Nat) (led : Performance ρ)
      : (advance clock (dispatch clock Performance.maxDepth) index ⟨led, []⟩).performance
          = (Performance.advance clock (Performance.fire clock) index led).2 :=
    advance_performance clock (dispatch_performance clock Performance.maxDepth) index _
  cases call with
  | next =>
    have hopened : (opened clock .next p).performance
        = (Performance.advanceCurrent clock { p with score := p.score.choose }).2 := by
      unfold opened Performance.advanceCurrent
      dsimp only [led, Call.opens?, Call.lead]
      cases p.score.choose.current with
      | none => rfl
      | some index =>
        rw [Option.filter_some]
        dsimp only
        cases p.score.choose.isExhausted index with
        | true => rfl
        | false => exact hadvance index _
    exact congrArg (Call.close clock .next) hopened
  | playSequence id =>
    dsimp only [answer, opened, led, Call.opens?, Call.lead, Call.close, Performance.answer,
      Performance.playSequence]
    cases p.score.findSequence id with
    | error => rfl
    | ok index => exact hadvance index _
  | setSequence id atDate autoStart =>
    dsimp only [answer, opened, led, Call.opens?, Call.lead, Call.close, Performance.answer,
      Performance.setSequence, Performance.select]
    cases p.score.findSequence id with
    | error => cases autoStart <;> rfl
    | ok index =>
      cases autoStart with
      | false => rfl
      | true => exact hadvance index _

end

/--
From `before` to `after` there were these advances, and these events were recorded.
-/
structure Adds (advances : List (Nat × Option Step)) (recorded : List Event) (before after : Trail ρ) :
    Prop where
  advances : after.advances = before.advances ++ advances
  events : after.performance.score.events.toList
    = before.performance.score.events.toList ++ recorded

def Within (advances events : Nat) (before after : Trail ρ) : Prop :=
  ∃ more recorded,
    Adds more recorded before after ∧ more.length ≤ advances ∧ recorded.length ≤ events

/--
From `before` to `after` each advance was one of the sequence at `index` and gave a step, in the order
of `given`, and the steps `recorded` occurred.
-/
def Repeats (index : Nat) (given recorded : List Step) (before after : Trail ρ) : Prop :=
  ∃ events,
    Adds (given.map fun step => (index, some step)) events before after
      ∧ events.map (·.step) = recorded

section

omit [RandomSource ρ]

variable {before mid after : Trail ρ}

theorem Adds.trans {advances more : List (Nat × Option Step)} {recorded others : List Event}
    (h : Adds advances recorded before mid) (hlast : Adds more others mid after)
    : Adds (advances ++ more) (recorded ++ others) before after := by
  constructor
  . rw [hlast.advances, h.advances, List.append_assoc]
  . rw [hlast.events, h.events, List.append_assoc]

theorem adds_nothing (t : Trail ρ) {p : Performance ρ}
    (hevents : p.score.events = t.performance.score.events)
    : Adds [] [] t { t with performance := p } := by
  refine ⟨(List.append_nil _).symm, ?_⟩
  rw [hevents, List.append_nil]

theorem adds_advance (advance : Nat × Option Step) (t : Trail ρ) {p : Performance ρ}
    (hevents : p.score.events = t.performance.score.events)
    : Adds [advance] [] t ⟨p, t.advances ++ [advance]⟩ := by
  refine ⟨rfl, ?_⟩
  rw [hevents, List.append_nil]

theorem carryOut_adds (clock : Clock ρ) (sequenceId : String) (step : Step) (t : Trail ρ)
    : ∃ event, event.step = step
        ∧ Adds [] [event] t (carryOut clock sequenceId step t) := by
  let p := t.performance
  obtain ⟨_, _, _, hsteer⟩ := (p.record clock sequenceId step).score.steer_eq step
  refine ⟨⟨p.score.eventCount + 1, (p.read clock).1, sequenceId, step⟩, rfl, ?_, ?_⟩
  . exact (List.append_nil _).symm
  . dsimp only [carryOut, Performance.carryOut]
    rw [hsteer]
    exact Array.toList_push

theorem Within.trans {advances events more others : Nat} (h : Within advances events before mid)
    (hlast : Within more others mid after)
    : Within (advances + more) (events + others) before after := by
  obtain ⟨first, recorded, hadds, hfirst, hrecorded⟩ := h
  obtain ⟨second, recorded', hadds', hsecond, hrecorded'⟩ := hlast
  refine ⟨first ++ second, recorded ++ recorded', hadds.trans hadds', ?_, ?_⟩
  . rw [List.length_append]
    exact Nat.add_le_add hfirst hsecond
  . rw [List.length_append]
    exact Nat.add_le_add hrecorded hrecorded'

theorem Within.mono {advances events more others : Nat} (h : Within advances events before after)
    (hadvances : advances ≤ more) (hevents : events ≤ others)
    : Within more others before after := by
  obtain ⟨added, recorded, hadds, hadded, hrecorded⟩ := h
  exact ⟨added, recorded, hadds, hadded.trans hadvances, hrecorded.trans hevents⟩

theorem Adds.within {advances : List (Nat × Option Step)} {recorded : List Event}
    (h : Adds advances recorded before after)
    : Within advances.length recorded.length before after :=
  ⟨advances, recorded, h, Nat.le_refl _, Nat.le_refl _⟩

end

end Trail

/--
No sequence has a group among its steps.
-/
def Score.IsFlat (s : Score) : Prop :=
  ∀ sequence ∈ s.sequences, ∀ step ∈ sequence.steps, step.isGroup = false

namespace Trail

open Performance (Rewound steady_rewound)

variable {ρ : Type} [RandomSource ρ] {start : Score}

omit [RandomSource ρ] in
theorem execute_within (clock : Clock ρ) {fire : Firing ρ} {sequenceId : String} {step : Step}
    {t : Trail ρ} {advances events : Nat}
    (hfire : Within advances events t (fire sequenceId step t))
    : Within advances events t (execute clock fire sequenceId step t) := by
  unfold execute
  split
  . let postponed := t.performance.postpone clock sequenceId step
    have hpostponed : Adds [] [] t { t with performance := postponed } := adds_nothing t rfl
    exact hpostponed.within.mono (Nat.zero_le _) (Nat.zero_le _)
  . exact hfire

theorem advance_within (clock : Clock ρ) (hflat : start.IsFlat) {fire : Firing ρ} {room : Nat}
    (hfire : ∀ sequenceId step (t : Trail ρ), step.isGroup = false → Rewound start t.performance →
      Within room room t (fire sequenceId step t))
    (index : Nat) {t : Trail ρ} (h : Rewound start t.performance)
    : Within (room + 1) room t (advance clock fire index t) := by
  unfold advance
  cases hdraw : t.performance.draw? index with
  | none =>
    have hadds := adds_advance (index, none) t (p := t.performance) rfl
    exact hadds.within.mono (Nat.le_add_left 1 room) (Nat.zero_le _)
  | some draw =>
    obtain ⟨sequenceId, step, drawn⟩ := draw
    obtain ⟨sequence, after, hget, hnext, hscore⟩ := Performance.draw?_eq_some hdraw
    obtain ⟨hmem, hrewound⟩ := Performance.given_of_rewound h hget hnext
    have hgroup : step.isGroup = false := Score.of_mem_stepsAt hflat hmem
    have hdrawn : Rewound start drawn := by
      rw [Rewound, hscore]
      exact hrewound
    have hevents : drawn.score.events = t.performance.score.events := by rw [hscore]
    let given : Trail ρ := ⟨drawn, t.advances ++ [(index, some step)]⟩
    have hgiven : Adds [(index, some step)] [] t given := adds_advance _ t hevents
    have hrest := execute_within clock (hfire sequenceId step given hgroup hdrawn)
    exact (hgiven.within.trans hrest).mono (Nat.le_of_eq (Nat.add_comm 1 room))
      (Nat.le_of_eq (Nat.zero_add room))

/--
A step that is no group advances no more sequences than there is room, and no more events occur.
-/
theorem dispatch_within (clock : Clock ρ) (hflat : start.IsFlat) (room : Nat) (sequenceId : String)
    (step : Step) (t : Trail ρ) (hgroup : step.isGroup = false) (h : Rewound start t.performance)
    : Within room room t (dispatch clock room sequenceId step t) := by
  induction room generalizing sequenceId step t with
  | zero => exact (adds_nothing t rfl).within
  | succ room ih =>
    unfold dispatch
    rw [hgroup, if_neg Bool.false_ne_true]
    have hkept := (steady_rewound (ρ := ρ) start).kept clock
    have hcarried : Rewound start (carryOut clock sequenceId step t).performance :=
      hkept.carryOut sequenceId trivial hgroup h
    obtain ⟨event, _, hadds⟩ := carryOut_adds clock sequenceId step t
    have hwithin : Within 0 1 t (carryOut clock sequenceId step t) := hadds.within
    cases step.starts? with
    | none => exact hwithin.mono (Nat.zero_le _) (Nat.le_add_left 1 room)
    | some index =>
      have hrest := advance_within clock hflat ih index hcarried
      exact (hwithin.trans hrest).mono (by omega) (by omega)

end Trail

/--
The step samples the sequence at `index` without delay.
-/
def Step.echoes (index : Nat) (step : Step) : Bool :=
  match step.command, step.target with
  | .sample, .sequence other _ => other == index && !step.isDelayed
  | _, _ => false

theorem Step.echoes_cases {index : Nat} {step : Step} (h : step.echoes index = true)
    : step.isDelayed = false ∧ step.isGroup = false ∧ step.starts? = some index
        ∧ step.date? = none ∧ ∀ s : Score, s.steer step = s := by
  unfold echoes at h
  split at h
  . next other _ hcommand htarget =>
    rw [Bool.and_eq_true, beq_iff_eq, Bool.not_eq_true'] at h
    unfold isGroup starts? date? Score.steer
    rw [hcommand, htarget, h.1]
    exact ⟨h.2, rfl, rfl, rfl, fun _ => rfl⟩
  . contradiction

/--
A sequence at `index` that repeats without end and samples itself with each of its steps.
-/
structure Sequence.Echoes (index : Nat) (s : Sequence) : Prop extends s.Coherent where
  steps_ne : s.steps ≠ []
  echoes : ∀ step ∈ s.steps, step.echoes index = true
  repeats : s.repeats = true
  count : s.count = none
  stranded : s.isStranded = false

namespace Sequence.Echoes

variable {index : Nat} {s : Sequence}

theorem next? {ρ : Type} [RandomSource ρ] (h : s.Echoes index) (source : ρ)
    : ∃ step after, s.next? source = some (step, after, source)
        ∧ step.echoes index = true ∧ after.Echoes index := by
  have hready : ¬(s.exhausted = true ∨ s.size ≤ s.nextIndex) := by
    rw [← h.next?_eq_none_iff source,
      h.next?_eq_none_iff_isStranded h.repeats h.count h.steps_ne, h.stranded]
    exact Bool.false_ne_true
  rw [not_or, Bool.not_eq_true, Nat.not_le] at hready
  obtain ⟨hexhausted, hlt⟩ := hready
  obtain ⟨step, hget⟩ : ∃ step, s.steps[s.nextIndex]? = some step :=
    ⟨_, List.getElem?_eq_getElem hlt⟩
  have hnext : s.next? source = some (step, s.advanced, source) := by
    rw [h.next?_eq, hexhausted, hget]
    rfl
  have hsame := next?_rewind hnext
  have hsteps : s.advanced.steps = s.steps := congrArg (·.steps) hsame
  refine ⟨step, s.advanced, hnext, h.echoes step (List.mem_of_getElem? hget), ?_⟩
  exact {
    toCoherent := h.toCoherent.advanced hexhausted
    steps_ne := hsteps ▸ h.steps_ne
    echoes := hsteps ▸ h.echoes
    repeats := (congrArg (·.repeats) hsame).trans h.repeats
    count := (congrArg (·.count) hsame).trans h.count
    stranded := isStranded_advanced hexhausted }

theorem cue (h : s.Echoes index) (atDate : Option Instant)
    : (atDate.bind s.matchDate?).getD s = s := by
  have hdated (date : Instant) : s.dated? date = none := by
    unfold dated?
    rw [List.findIdx?_eq_none_iff]
    intro step hmem
    obtain ⟨_, _, _, hdate, _⟩ := Step.echoes_cases (h.echoes step hmem)
    rw [hdate]
    rfl
  rw [cue_eq]
  cases atDate with
  | none => rfl
  | some date => rw [Option.bind_some, hdated]

end Sequence.Echoes

def Score.Echoes (index : Nat) (s : Score) : Prop :=
  ∃ sequence, s.sequences[index]? = some sequence ∧ sequence.Echoes index

namespace Trail

variable {ρ : Type} [RandomSource ρ] {index : Nat}

theorem advance_repeats (clock : Clock ρ) {fire : Firing ρ} {room : Nat}
    (hfire : ∀ sequenceId step (t : Trail ρ), step.echoes index = true →
      t.performance.score.Echoes index →
      ∃ steps : List Step, steps.length = room
        ∧ Repeats index steps ((step :: steps).take room) t (fire sequenceId step t))
    {t : Trail ρ} (h : t.performance.score.Echoes index)
    : ∃ steps : List Step, steps.length = room + 1
        ∧ Repeats index steps (steps.take room) t (advance clock fire index t) := by
  obtain ⟨sequence, hget, hechoes⟩ := h
  obtain ⟨step, after, hnext, hstep, hafter⟩ := hechoes.next? t.performance.source
  let drawn : Performance ρ :=
    ⟨{ t.performance.score with sequences := t.performance.score.sequences.set index after },
      t.performance.source⟩
  have hdraw : t.performance.draw? index = some (sequence.id, step, drawn) := by
    unfold Performance.draw?
    rw [hget, Option.bind_some, hnext]
    rfl
  have hdrawn : drawn.score.Echoes index := by
    refine ⟨after, ?_, hafter⟩
    have hlt := (List.getElem?_eq_some_iff.mp hget).1
    exact List.getElem?_set_self hlt
  let given : Trail ρ := ⟨drawn, t.advances ++ [(index, some step)]⟩
  have hadvance : advance clock fire index t = fire sequence.id step given := by
    obtain ⟨hdelayed, _⟩ := Step.echoes_cases hstep
    unfold advance execute
    rw [hdraw]
    exact if_neg (Bool.eq_false_iff.mp hdelayed)
  have hgiven : Adds [(index, some step)] [] t given := adds_advance _ t rfl
  obtain ⟨steps, hlength, events, hadds, hevents⟩ := hfire sequence.id step given hstep hdrawn
  rw [hadvance]
  exact ⟨step :: steps, congrArg (· + 1) hlength, events, hgiven.trans hadds, hevents⟩

/--
A step that samples its own sequence goes on as long as there is room. The last step that is given
finds none, so it is dropped.
-/
theorem dispatch_repeats (clock : Clock ρ) (room : Nat) (sequenceId : String) (step : Step)
    (t : Trail ρ) (hstep : step.echoes index = true) (h : t.performance.score.Echoes index)
    : ∃ steps : List Step, steps.length = room
        ∧ Repeats index steps ((step :: steps).take room) t
            (dispatch clock room sequenceId step t) := by
  induction room generalizing sequenceId step t with
  | zero => exact ⟨[], rfl, [], adds_nothing t rfl, rfl⟩
  | succ room ih =>
    obtain ⟨_, hgroup, hstarts, _, hsteer⟩ := Step.echoes_cases hstep
    have hcarried : (carryOut clock sequenceId step t).performance.score.Echoes index := by
      change ((t.performance.record clock sequenceId step).score.steer step).Echoes index
      rw [hsteer]
      exact h
    obtain ⟨event, hevent, hadds⟩ := carryOut_adds clock sequenceId step t
    obtain ⟨steps, hlength, events, hadds', hevents⟩ := advance_repeats clock ih hcarried
    unfold dispatch
    rw [hgroup, if_neg Bool.false_ne_true, hstarts]
    refine ⟨steps, hlength, event :: events, hadds.trans hadds', ?_⟩
    rw [List.map_cons, hevent, hevents, List.take_succ_cons]

end Trail

namespace Call

theorem lead_cases {P : Score → Prop} {s : Score} (call : Call) (hsame : P s) (hchoose : P s.choose)
    (henqueue : ∀ index, P (s.enqueue index)) (hselect : ∀ index atDate, P (s.select index atDate))
    : P (call.lead s) := by
  cases call with
  | next => exact hchoose
  | playSequence id =>
    dsimp only [lead]
    cases s.findSequence id with
    | error => exact hsame
    | ok index => exact henqueue index
  | setSequence id atDate =>
    dsimp only [lead]
    cases s.findSequence id with
    | error => exact hsame
    | ok index => exact hselect index atDate

theorem lead_rewind (call : Call) (s : Score)
    : (call.lead s).sequences.map Sequence.rewind = s.sequences.map Sequence.rewind := by
  obtain ⟨_, _, hchoose⟩ := s.choose_eq
  apply call.lead_cases (P := fun led =>
    led.sequences.map Sequence.rewind = s.sequences.map Sequence.rewind)
  . rfl
  . rw [hchoose]
  . exact fun _ => rfl
  . exact fun _ atDate => map_modify_eq (Sequence.cue_rewind atDate) _

theorem lead_events (call : Call) (s : Score) : (call.lead s).events = s.events := by
  obtain ⟨_, _, hchoose⟩ := s.choose_eq
  apply call.lead_cases (P := fun led => led.events = s.events)
  . rfl
  . rw [hchoose]
  . exact fun _ => rfl
  . exact fun _ _ => rfl

theorem lead_echoes (call : Call) {s : Score} {index : Nat} (h : s.Echoes index)
    : (call.lead s).Echoes index := by
  obtain ⟨_, _, hchoose⟩ := s.choose_eq
  apply call.lead_cases (P := Score.Echoes index)
  . exact h
  . rw [hchoose]
    exact h
  . exact fun _ => h
  . intro other atDate
    obtain ⟨sequence, hget, hechoes⟩ := h
    refine ⟨sequence, ?_, hechoes⟩
    unfold Score.select
    rw [List.getElem?_modify, hget]
    split
    . exact congrArg some (hechoes.cue atDate)
    . rfl

theorem close_events {ρ : Type} (clock : Clock ρ) (call : Call) (p : Performance ρ)
    : (call.close clock p).score.events = p.score.events := by
  unfold close
  split
  . split
    . obtain ⟨_, _, hschedule⟩ := p.scheduleTick_eq clock
      rw [hschedule]
    . rfl
  . rfl

end Call

namespace Trail

variable {ρ : Type} [RandomSource ρ]

theorem answer_adds (clock : Clock ρ) (call : Call) (p : Performance ρ)
    {advances : List (Nat × Option Step)} {recorded : List Event}
    (h : Adds advances recorded (led call p) (opened clock call p))
    : Adds advances recorded ⟨p, []⟩ (answer clock call p) := by
  have hled : Adds [] [] ⟨p, []⟩ (led call p) :=
    adds_nothing ⟨p, []⟩ (call.lead_events p.score)
  have hclosed : Adds [] [] (opened clock call p) (answer clock call p) :=
    adds_nothing _ (call.close_events clock _)
  simpa using (hled.trans h).trans hclosed

theorem opened_within (clock : Clock ρ) (call : Call) {p : Performance ρ} (hflat : p.score.IsFlat)
    : Within (Performance.maxDepth + 1) Performance.maxDepth (led call p) (opened clock call p) := by
  unfold opened
  cases call.opens? p.score with
  | none => exact (adds_nothing _ rfl).within.mono (Nat.zero_le _) (Nat.zero_le _)
  | some index =>
    apply advance_within clock hflat
    . exact dispatch_within clock hflat Performance.maxDepth
    . exact call.lead_rewind p.score

theorem opened_repeats (clock : Clock ρ) (call : Call) {p : Performance ρ} {index : Nat}
    (hopens : call.opens? p.score = some index) (h : p.score.Echoes index)
    : ∃ steps : List Step, steps.length = Performance.maxDepth + 1
        ∧ Repeats index steps (steps.take Performance.maxDepth) (led call p)
            (opened clock call p) := by
  unfold opened
  rw [hopens]
  apply advance_repeats
  . exact dispatch_repeats clock Performance.maxDepth
  . exact call.lead_echoes h

/--
Where no step is a group, one call of a host advances sequences 34 times at most, whatever they set
going and however they go round in a circle, and 33 events occur at most. If it starts with a sequence
that samples itself, all of these advances give a step, and all of the steps but the last one occur.
-/
theorem answer_bounded (clock : Clock ρ) (call : Call) {p : Performance ρ} (hflat : p.score.IsFlat)
    : let t := answer clock call p
      t.performance = (p.answer clock call).2
        ∧ ∃ recorded,
            (p.answer clock call).2.score.events.toList = p.score.events.toList ++ recorded
              ∧ recorded.length ≤ 33
              ∧ t.advances.length ≤ 34
              ∧ ∀ index, call.opens? p.score = some index → p.score.Echoes index →
                  recorded.length = 33
                    ∧ ∃ steps : List Step, steps.length = 34
                      ∧ t.advances = steps.map (fun step => (index, some step))
                      ∧ recorded.map (·.step) = steps.take 33 := by
  intro t
  have hperformance : t.performance = (p.answer clock call).2 := answer_performance clock call p
  obtain ⟨advances, recorded, hopened, hadvances, hrecorded⟩ := opened_within clock call hflat
  have hadds : Adds advances recorded ⟨p, []⟩ t := answer_adds clock call p hopened
  refine ⟨hperformance, recorded, hperformance ▸ hadds.events, hrecorded, ?_, ?_⟩
  . rw [hadds.advances]
    exact hadvances
  . intro index hopens hechoes
    obtain ⟨steps, hlength, events, hrepeats, hevents⟩ := opened_repeats clock call hopens hechoes
    have hgiven := answer_adds clock call p hrepeats
    have hsame : recorded = events := List.append_cancel_left (hadds.events.symm.trans hgiven.events)
    rw [← hsame] at hevents
    refine ⟨?_, steps, hlength, hgiven.advances, hevents⟩
    rw [← List.length_map (·.step), hevents, List.length_take, hlength]
    rfl

/--
A sequence of one step that samples the sequence itself goes as far as a call can go. As each advance
of it ends a pass, it counts the advances itself.
-/
theorem answer_bounded_loop
    : let step : Step := .mk { id := 0, command := .sample, content := "loop" } []
      let loop : Sequence := { id := "loop", steps := [step], repeats := true }
      let p := (Chronicle.opening default [.sequence loop] (SeededSource.ofSeed 0)).performance
      let extent (call : Call) : Nat × Nat :=
        ((answer (Clock.held default) call p).advances.length,
          (p.answer (Clock.held default) call).2.score.events.size)
      p.score.IsFlat
        ∧ extent .next = (34, 33)
        ∧ extent (.playSequence "loop") = (34, 33)
        ∧ extent (.setSequence "loop" none true) = (34, 33)
        ∧ (p.perform (Clock.held default) .next).score.sequences.map (·.completions) = [34] := by
  intro step loop p extent
  let drafted : Score := (Score.empty default).addSequence loop
  let sampling : Step := .mk (drafted.resolve step.instruction) []
  let resolved : Sequence := { loop with steps := [sampling] }
  have hsequences : p.score.sequences = [resolved] := rfl
  have hsampling : sampling.echoes 0 = true := by decide +kernel
  have hflat : p.score.IsFlat := by
    intro sequence hsequence other hother
    rw [hsequences, List.mem_singleton] at hsequence
    rw [hsequence, List.mem_singleton] at hother
    rw [hother]
    exact (Step.echoes_cases hsampling).2.1
  have hechoes : p.score.Echoes 0 := by
    refine ⟨resolved, rfl, ?_⟩
    exact {
      toCoherent := .of_fresh rfl rfl
      steps_ne := List.cons_ne_nil _ _
      echoes := by simpa [resolved] using hsampling
      repeats := rfl
      count := rfl
      stranded := Sequence.isStranded_of_cursor_eq_none rfl }
  have hextent (call : Call) (hopens : call.opens? p.score = some 0) : extent call = (34, 33) := by
    obtain ⟨_, recorded, hevents, _, _, hreached⟩ :=
      answer_bounded (Clock.held default) call hflat
    obtain ⟨hrecorded, steps, hlength, hadvances, _⟩ := hreached 0 hopens hechoes
    dsimp only [extent]
    rw [hadvances, List.length_map, hlength, ← Array.length_toList, hevents, List.length_append,
      hrecorded]
    rfl
  exact ⟨hflat, hextent _ (by decide +kernel), hextent _ (by decide +kernel),
    hextent _ (by decide +kernel), by decide +kernel⟩

end Trail

end Narrative
