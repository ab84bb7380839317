import Narrative.Proofs.Advance
import Narrative.Proofs.Bounds

/-!
This module contains playback that takes no index on trust. It has no result as soon as it looks up
an index at which there is nothing, and in the course of a run that does not happen.
-/

namespace Narrative

namespace Strict

abbrev Firing (ρ : Type) :=
  (sequenceId : String) → Step → Performance ρ → Option (Performance ρ)

variable {ρ : Type} [RandomSource ρ]

def nextOf (s : Sequence) (source : ρ) : Option (Option (Step × Sequence × ρ)) :=
  if s.steps.isEmpty || s.exhausted then
    some none
  else if s.shuffle then
    -- the only place that is not compared with the size is the one that was drawn
    (s.nextShuffled? source).map some
  else
    some (s.nextOrdered?.map fun (step, after) => (step, after, source))

def reveal (characters : List Character) (step : Step) : Option (List Character) :=
  match step.target with
  | .character index _ =>
    if step.command.revealsCharacter then
      characters[index]?.map fun character => characters.set index character.reveal
    else
      some characters
  | _ => some characters

def worldAfter (w : World) (locations : List Location) (step : Step) : Option World :=
  match step.command, step.target with
  | .setLocation, .location index _ => locations[index]?.map fun location => { w with location }
  | _, _ => some (w.after locations step)

def record (clock : Clock ρ) : Firing ρ :=
  fun sequenceId step p => do
    let characters ← reveal p.score.characters step
    let world ← worldAfter p.score.world p.score.locations step
    let recorded := p.record clock sequenceId step
    some { recorded with score := { recorded.score with characters, world } }

def select (s : Score) (index : Nat) (atDate : Option Instant) : Option Score :=
  s.sequences[index]?.map fun sequence =>
    { s with
      sequenceIndex := index
      current := some index
      sequences := s.sequences.set index ((atDate.bind sequence.matchDate?).getD sequence) }

def resetSequence (s : Score) (index : Nat) : Option Score :=
  s.sequences[index]?.map fun sequence =>
    { s with sequences := s.sequences.set index sequence.reset }

def execute (clock : Clock ρ) (fire : Firing ρ) : Firing ρ :=
  fun sequenceId step p =>
    if step.isDelayed then some (p.postpone clock sequenceId step) else fire sequenceId step p

def advance (clock : Clock ρ) (fire : Firing ρ) (index : Nat) (p : Performance ρ) :
    Option (Option Step × Performance ρ) :=
  match p.score.sequences[index]? with
  | none => some (none, p)
  | some sequence =>
    match nextOf sequence p.source with
    | none => none
    | some none => some (none, p)
    | some (some (step, after, source)) =>
      let score := { p.score with sequences := p.score.sequences.set index after }
      (execute clock fire sequence.id step { score, source }).map fun p => (some step, p)

def start (clock : Clock ρ) (fire : Firing ρ) (index : Nat) (atDate : Option Instant)
    (autoStart : Bool) (p : Performance ρ) : Option (Option Step × Performance ρ) := do
  let score ← select p.score index atDate
  if autoStart then advance clock fire index { p with score } else some (none, { p with score })

def follow (clock : Clock ρ) (fire : Firing ρ) (step : Step) (p : Performance ρ) :
    Option (Performance ρ) :=
  match step.command, step.target with
  | .setSequence atDate autoStart, .sequence index _ =>
    (start clock fire index atDate autoStart p).map (·.2)
  | .sample, .sequence index _ => (advance clock fire index p).map (·.2)
  | .reset, .sequence index _ =>
    (resetSequence p.score index).map fun score => { p with score }
  | _, _ => some p

def dispatch (clock : Clock ρ) : (room : Nat) → Firing ρ
  | 0, _, _, p => some p
  | room + 1, sequenceId, step, p =>
    match step.command with
    | .group =>
      step.substeps.foldlM
        (fun p substep => execute clock (dispatch clock room) sequenceId substep p) p
    | _ => (record clock sequenceId step p).bind (follow clock (dispatch clock room) step)

def fire (clock : Clock ρ) : Firing ρ :=
  dispatch clock Performance.maxDepth

def choose (s : Score) : Option Score := do
  let queue ← match s.queue with
    | [] => some []
    | top :: rest =>
      s.sequences[top]?.map fun sequence => if sequence.completed then rest else top :: rest
  match queue.head? <|> s.topLevel? with
  | none => some { s with queue }
  | some index =>
    s.sequences[index]?.map fun sequence =>
      { s with queue, current := if sequence.exhausted then s.current else some index }

def advanceCurrent (clock : Clock ρ) (p : Performance ρ) : Option (Option Step × Performance ρ) :=
  match p.score.current with
  | none => some (none, p)
  | some index => do
    let sequence ← p.score.sequences[index]?
    if sequence.exhausted then some (none, p) else advance clock (fire clock) index p

def next (clock : Clock ρ) (p : Performance ρ) : Option (Option Step × Performance ρ) := do
  let score ← choose p.score
  let (step, p) ← advanceCurrent clock { p with score }
  some (step, if p.score.playing then p.scheduleTick clock else p)

def request (clock : Clock ρ) (p : Performance ρ) : Option (Option Step × Performance ρ) :=
  let (now, p) := p.read clock
  if !p.score.options.allowInputDuringDelay && p.score.isBusy now then
    some (none, p)
  else
    next clock { p with score := { p.score with triggerTime := some now } }

def play (clock : Clock ρ) (p : Performance ρ) : Option (Option Step × Performance ρ) :=
  next clock { p with score := { p.score with playing := true } }

def fireTask (clock : Clock ρ) (task : Timeline.Task) (p : Performance ρ) :
    Option (Performance ρ) :=
  match task.action with
  | .dispatch step sequenceId => fire clock sequenceId step p
  | .tick =>
    let p := if p.score.playTask = some task.id then
        { p with score := { p.score with playTask := none } }
      else
        p
    if p.score.playing then (next clock p).map (·.2) else some p

def fireDueBefore (clock : Clock ρ) (now : Instant) (mark : Nat) :
    (limit : Nat) → Performance ρ → Option (Performance ρ)
  | 0, p => some p
  | limit + 1, p =>
    match p.score.timeline.popDue? now mark with
    | none => some p
    | some (task, timeline) =>
      (fireTask clock task { p with score := { p.score with timeline } }).bind
        (fireDueBefore clock now mark limit)

def runDue (clock : Clock ρ) (p : Performance ρ) : Option (Performance ρ) :=
  let (now, p) := p.read clock
  fireDueBefore clock now p.score.timeline.watermark p.score.timeline.size p

def perform (clock : Clock ρ) (operation : Operation) (p : Performance ρ) :
    Option (Performance ρ) :=
  match operation with
  | .next => (next clock p).map (·.2)
  | .request => (request clock p).map (·.2)
  | .play => (play clock p).map (·.2)
  | .runDue => runDue clock p
  | .playSequence id =>
    match p.score.findSequence id with
    | .error _ => some p
    | .ok index =>
      (advance clock (fire clock) index { p with score := p.score.enqueue index }).map (·.2)
  | .setSequence id atDate autoStart =>
    match p.score.findSequence id with
    | .error _ => some p
    | .ok index => (start clock (fire clock) index atDate autoStart p).map (·.2)
  -- these look up no index
  | .stop | .reset | .takeEvents | .clearEvents => some (p.perform clock operation)

def current (s : Score) : Option (Option Sequence) :=
  match s.current with
  | none => some none
  | some index => s.sequences[index]?.map some

def queuedIds (s : Score) : Option (List String) :=
  s.queue.reverse.mapM fun index => s.sequences[index]?.map (·.id)

def setLocation (s : Score) (id : String) : Option (Except ScoreError Score) :=
  match s.locationNamed? id with
  | none => some (.error (.notFound .location id))
  | some index =>
    s.locations[index]?.map fun location => .ok { s with world.location := location }

theorem nextOf_eq (s : Sequence) (source : ρ) : nextOf s source = some (s.next? source) := by
  unfold nextOf Sequence.next?
  split
  . rfl
  . next hgoes =>
    rw [Bool.or_eq_true, not_or, List.isEmpty_iff] at hgoes
    split
    . have hsize : 0 < s.size := List.length_pos_iff.mpr hgoes.1
      obtain ⟨drawn, hdrawn⟩ := Option.isSome_iff_exists.mp (s.nextShuffled?_isSome source hsize)
      rw [hdrawn]
      rfl
    . rfl

omit [RandomSource ρ] in
theorem foldlM_eq_some {P : Performance ρ → Prop} {f : Performance ρ → Step → Option (Performance ρ)}
    {g : Performance ρ → Step → Performance ρ} {steps : List Step}
    (hsame : ∀ p, P p → ∀ step ∈ steps, f p step = some (g p step) ∧ P (g p step))
    {p : Performance ρ} (hp : P p)
    : steps.foldlM f p = some (steps.foldl g p) := by
  induction steps generalizing p with
  | nil => rfl
  | cons step steps ih =>
    obtain ⟨hstep, hkept⟩ := hsame p hp step List.mem_cons_self
    rw [List.foldlM_cons, hstep, List.foldl_cons]
    exact ih (fun p hp other hother => hsame p hp other (List.mem_cons_of_mem _ hother)) hkept

section

variable {e : Extent} {s : Score}

theorem reveal_eq (h : s.Within e) {step : Step} (hstep : e.Knows step)
    : reveal s.characters step = some (revealTarget s.characters step) := by
  have htarget := hstep.target
  rw [← h.extent] at htarget
  unfold reveal revealTarget
  generalize step.target = target at htarget
  cases target with
  | character index =>
    have hindex : index < s.characters.length := htarget
    dsimp only
    split
    . rw [List.getElem?_eq_getElem hindex, List.modify_eq_set_get _ hindex]
      rfl
    . rfl
  | _ => rfl

theorem worldAfter_eq (h : s.Within e) {step : Step} (hstep : e.Knows step)
    : worldAfter s.world s.locations step = some (s.world.after s.locations step) := by
  have htarget := hstep.target
  rw [← h.extent] at htarget
  unfold worldAfter
  split
  . next index _ hcommand hlocation =>
    rw [hlocation] at htarget
    have hindex : index < s.locations.length := htarget
    unfold World.after
    rw [hcommand, hlocation]
    dsimp only
    rw [List.getElem?_eq_getElem hindex]
    rfl
  . rfl

theorem select_eq {index : Nat} (hindex : index < s.sequences.length) (atDate : Option Instant)
    : select s index atDate = some (s.select index atDate) := by
  unfold select Score.select
  dsimp only
  rw [List.getElem?_eq_getElem hindex, List.modify_eq_set_get _ hindex]
  rfl

theorem resetSequence_eq {index : Nat} (hindex : index < s.sequences.length)
    : resetSequence s index = some (s.resetSequence index) := by
  unfold resetSequence Score.resetSequence
  rw [List.getElem?_eq_getElem hindex, List.modify_eq_set_get _ hindex]
  rfl

theorem choose_eq (h : s.Within e) : choose s = some s.choose := by
  have hfront (queue : List Nat) (hqueue : ∀ index ∈ queue, index < s.sequences.length)
      : (match queue.head? <|> s.topLevel? with
          | none => some { s with queue }
          | some index =>
            s.sequences[index]?.map fun sequence =>
              { s with queue, current := if sequence.exhausted then s.current else some index })
          =
        some (match queue.head? <|> s.topLevel? with
          | none => { s with queue }
          | some index =>
            { s with
              queue
              current := if s.isExhausted index then s.current else some index }) := by
    cases hchosen : queue.head? <|> s.topLevel? with
    | none => rfl
    | some index =>
      have hindex : index < s.sequences.length := by
        cases queue with
        | nil => exact (Score.topLevel?_eq_some_iff.mp hchosen).2
        | cons top rest =>
          rw [← Option.some.inj hchosen]
          exact hqueue top List.mem_cons_self
      dsimp only
      rw [Score.isExhausted_eq (List.getElem?_eq_getElem hindex), List.getElem?_eq_getElem hindex]
      rfl
  have hqueue := h.inBounds.queue
  unfold choose Score.choose
  cases hsome : s.queue with
  | nil => exact hfront [] fun _ hmem => nomatch hmem
  | cons top rest =>
    rw [hsome] at hqueue
    have htop := hqueue top List.mem_cons_self
    have hcompleted : s.isCompleted top = s.sequences[top].completed := by
      unfold Score.isCompleted
      rw [List.getElem?_eq_getElem htop]
      rfl
    dsimp only
    rw [hcompleted, List.getElem?_eq_getElem htop]
    apply hfront
    intro index hmem
    apply hqueue
    dsimp only at hmem
    split at hmem
    . exact List.mem_cons_of_mem _ hmem
    . exact hmem

end

/--
Both ways to fire steps come to the same as long as the indices are within the extent.
-/
def Agrees (e : Extent) (strict : Firing ρ) (fire : Performance.Firing ρ) : Prop :=
  ∀ (sequenceId : String) {step : Step} {p : Performance ρ}, e.Knows step → p.score.Within e →
    strict sequenceId step p = some (fire sequenceId step p)

variable {e : Extent}

omit [RandomSource ρ] in
theorem record_agrees (clock : Clock ρ) : Agrees e (record clock) (Performance.record clock) := by
  intro sequenceId step p hstep h
  unfold record
  rw [reveal_eq h hstep, worldAfter_eq h hstep]
  rfl

namespace Agrees

variable {strict : Firing ρ} {fire : Performance.Firing ρ}

omit [RandomSource ρ] in
theorem execute (h : Agrees e strict fire) (clock : Clock ρ)
    : Agrees e (Strict.execute clock strict) (Performance.execute clock fire) := by
  intro sequenceId step p hstep hp
  unfold Strict.execute Performance.execute
  split
  . rfl
  . exact h sequenceId hstep hp

theorem advance (h : Agrees e strict fire) (clock : Clock ρ) (index : Nat) {p : Performance ρ}
    (hp : p.score.Within e)
    : Strict.advance clock strict index p = some (p.advance clock fire index) := by
  unfold Strict.advance Performance.advance
  cases hget : p.score.sequences[index]? with
  | none => rfl
  | some sequence =>
    dsimp only
    rw [nextOf_eq]
    cases hnext : sequence.next? p.source with
    | none => rfl
    | some drawn =>
      obtain ⟨hstep, hdrawn⟩ := (Performance.kept_within clock e).draw hp hget hnext
      dsimp only
      rw [h.execute clock sequence.id hstep hdrawn]
      rfl

theorem start (h : Agrees e strict fire) (clock : Clock ρ) {index : Nat}
    (hindex : index < e.sequences) (atDate : Option Instant) (autoStart : Bool)
    {p : Performance ρ} (hp : p.score.Within e)
    : Strict.start clock strict index atDate autoStart p
        =
      some (p.select clock fire index atDate autoStart) := by
  unfold Strict.start Performance.select
  rw [select_eq (hp.length ▸ hindex)]
  cases autoStart with
  | true => exact h.advance clock index (Score.select_within hp hindex atDate)
  | false => rfl

theorem follow (h : Agrees e strict fire) (clock : Clock ρ) {step : Step} (hstep : e.Knows step)
    {p : Performance ρ} (hp : p.score.Within e)
    : Strict.follow clock strict step p = some (Performance.follow clock fire step p) := by
  have htarget := hstep.target
  unfold Strict.follow Performance.follow
  generalize step.command = command
  generalize step.target = target at htarget
  cases command with
  | setSequence atDate autoStart =>
    cases target with
    | sequence index =>
      dsimp only
      rw [h.start clock htarget atDate autoStart hp]
      rfl
    | _ => rfl
  | sample =>
    cases target with
    | sequence index =>
      dsimp only
      rw [h.advance clock index hp]
      rfl
    | _ => rfl
  | reset =>
    cases target with
    | sequence index =>
      dsimp only
      rw [resetSequence_eq (hp.length ▸ htarget)]
      rfl
    | _ => rfl
  | _ => cases target <;> rfl

end Agrees

theorem dispatch_agrees (clock : Clock ρ) (room : Nat)
    : Agrees e (dispatch clock room) (Performance.dispatch clock room) := by
  induction room with
  | zero =>
    intro sequenceId step p _ _
    rfl
  | succ room ih =>
    intro sequenceId step p hstep hp
    have hkept := Performance.kept_within clock e
    have hrecorded : (p.record clock sequenceId step).score.Within e :=
      Score.record_within hp _ _ _
    have hsingle : (record clock sequenceId step p).bind (follow clock (dispatch clock room) step)
        = some (Performance.follow clock (Performance.dispatch clock room) step
            (p.record clock sequenceId step)) := by
      rw [record_agrees clock sequenceId hstep hp, Option.bind_some,
        ih.follow clock hstep hrecorded]
    unfold dispatch Performance.dispatch
    cases step.command with
    | group =>
      refine foldlM_eq_some (P := fun p => p.score.Within e) ?_ hp
      intro p hp substep hmem
      have hsubstep := hstep.substep hmem
      exact ⟨ih.execute clock sequenceId hsubstep hp,
        hkept.execute (hkept.dispatch room sequenceId hsubstep) hsubstep hp⟩
    | _ => exact hsingle

theorem fire_agrees (clock : Clock ρ) : Agrees e (fire clock) (Performance.fire clock) :=
  dispatch_agrees clock Performance.maxDepth

variable {p : Performance ρ}

theorem advanceCurrent_eq (clock : Clock ρ) (h : p.score.Within e)
    : advanceCurrent clock p = some (p.advanceCurrent clock) := by
  unfold advanceCurrent Performance.advanceCurrent
  cases hcurrent : p.score.current with
  | none => rfl
  | some index =>
    have hindex := h.inBounds.current index hcurrent
    dsimp only
    rw [Score.isExhausted_eq (List.getElem?_eq_getElem hindex), List.getElem?_eq_getElem hindex]
    change (if p.score.sequences[index].exhausted then some (none, p)
      else advance clock (fire clock) index p) = _
    rw [(fire_agrees clock).advance clock index h]
    split
    . rfl
    . rfl

theorem next_eq (clock : Clock ρ) (h : p.score.Within e)
    : next clock p = some (p.next clock) := by
  unfold next Performance.next
  rw [choose_eq h]
  change (advanceCurrent clock { p with score := p.score.choose }).bind _ = _
  rw [advanceCurrent_eq clock (Score.choose_within h)]
  rfl

theorem request_eq (clock : Clock ρ) (h : p.score.Within e)
    : request clock p = some (p.request clock) := by
  unfold request Performance.request
  dsimp only
  split
  . rfl
  . exact next_eq clock ((Performance.within_stable e).trigger _ h)

theorem fireTask_eq (clock : Clock ρ) {task : Timeline.Task}
    (htask : ∀ {step : Step} {sequenceId : String},
      task.action = .dispatch step sequenceId → e.Knows step)
    (h : p.score.Within e)
    : fireTask clock task p = some (p.fireTask clock task) := by
  unfold fireTask Performance.fireTask
  cases haction : task.action with
  | dispatch step sequenceId => exact fire_agrees clock sequenceId (htask haction) h
  | tick =>
    have hspent : Score.Within e (if p.score.playTask = some task.id then
        { p with score := { p.score with playTask := none } } else p).score := by
      split
      . exact (Performance.within_stable e).spend h
      . exact h
    dsimp only
    generalize (if p.score.playTask = some task.id then
      { p with score := { p.score with playTask := none } } else p) = spent at hspent ⊢
    split
    . rw [next_eq clock hspent]
      rfl
    . rfl

theorem fireDueBefore_eq (clock : Clock ρ) (now : Instant) (mark limit : Nat)
    (h : p.score.Within e)
    : fireDueBefore clock now mark limit p
        =
      some (p.fireDueBefore clock now mark limit).2 := by
  induction limit generalizing p with
  | zero => rfl
  | succ limit ih =>
    have hstable : Performance.Stable e.Knows (fun p : Performance ρ => p.score.Within e) :=
      Performance.within_stable e
    unfold fireDueBefore Performance.fireDueBefore
    cases hpop : p.score.timeline.popDue? now mark with
    | none => rfl
    | some popped =>
      obtain ⟨task, timeline⟩ := popped
      obtain ⟨htask, hleft⟩ := hstable.pop h hpop
      dsimp only
      rw [fireTask_eq clock htask hleft, Option.bind_some]
      exact ih (hstable.fireTask clock task htask hleft)

theorem perform_eq (clock : Clock ρ) (operation : Operation) (h : p.score.Within e)
    : perform clock operation p = some (p.perform clock operation) := by
  have hstable : Performance.Stable e.Knows (fun p : Performance ρ => p.score.Within e) :=
    Performance.within_stable e
  cases operation with
  | next =>
    unfold perform
    dsimp only
    rw [next_eq clock h]
    rfl
  | request =>
    unfold perform
    dsimp only
    rw [request_eq clock h]
    rfl
  | play =>
    unfold perform play
    dsimp only
    rw [next_eq clock (hstable.setPlaying h)]
    rfl
  | runDue => exact fireDueBefore_eq clock _ _ _ (hstable.read clock h)
  | playSequence id =>
    unfold perform
    rw [Performance.perform_playSequence]
    dsimp only
    cases hfind : p.score.findSequence id with
    | error => rfl
    | ok index =>
      dsimp only
      rw [(fire_agrees clock).advance clock index (hstable.enqueue h hfind)]
      rfl
  | setSequence id atDate autoStart =>
    unfold perform
    rw [Performance.perform_setSequence]
    dsimp only
    cases hfind : p.score.findSequence id with
    | error => rfl
    | ok index =>
      have hindex : index < e.sequences := h.length ▸ Score.findSequence_lt hfind
      dsimp only
      rw [(fire_agrees clock).start clock hindex atDate autoStart h]
      rfl
  | _ => rfl

variable {s : Score}

theorem current_eq (h : s.InBounds) : current s = some s.currentSequence? := by
  have hindex := h.current
  unfold current Score.currentSequence?
  cases hcurrent : s.current with
  | none => rfl
  | some index =>
    dsimp only
    rw [Option.bind_some, List.getElem?_eq_getElem (hindex index hcurrent)]
    rfl

theorem queuedIds_eq (h : s.InBounds) : queuedIds s = some s.queuedIds := by
  have hqueue : ∀ index ∈ s.queue.reverse, index < s.sequences.length :=
    fun index hmem => h.queue index (List.mem_reverse.mp hmem)
  unfold queuedIds Score.queuedIds
  generalize s.queue.reverse = queue at hqueue
  induction queue with
  | nil => rfl
  | cons index rest ih =>
    rw [List.forall_mem_cons] at hqueue
    rw [List.mapM_cons, ih hqueue.2, List.getElem?_eq_getElem hqueue.1, List.filterMap_cons,
      List.getElem?_eq_getElem hqueue.1]
    rfl

theorem setLocation_eq (s : Score) (id : String) : setLocation s id = some (s.setLocation id) := by
  unfold setLocation Score.setLocation
  cases hnamed : s.locationNamed? id with
  | none => rfl
  | some index =>
    have hindex := Score.locationNamed?_lt hnamed
    dsimp only
    rw [Option.bind_some, List.getElem?_eq_getElem hindex]
    rfl

end Strict

namespace Chronicle

variable {ρ : Type} [RandomSource ρ]

open Score in
/--
However a score is assembled, extended and played, there is an item at every index that it keeps, and
none of its operations looks up an index at which there is nothing.
-/
theorem run_stays_in_bounds (start : Instant) (parts : List Part) (source : ρ)
    (turns : List (Turn ρ)) (hturns : ∀ turn ∈ turns, turn.Unresolved)
    : let c := (opening start parts source).run turns
      c.score.InBounds
        ∧ (∀ id index, c.score.sequenceNamed? id = some index → index < c.score.sequences.length)
        ∧ (∀ id index, c.score.characterNamed? id = some index → index < c.score.characters.length)
        ∧ (∀ id index, c.score.locationNamed? id = some index → index < c.score.locations.length)
        ∧ (∀ clock operation, Strict.perform clock operation c.performance
            = some (c.performance.perform clock operation))
        ∧ Strict.current c.score = some c.score.currentSequence?
        ∧ Strict.queuedIds c.score = some c.score.queuedIds
        ∧ (∀ id, Strict.setLocation c.score id = some (c.score.setLocation id)) := by
  intro c
  have hbounds : c.score.InBounds := run_inBounds hturns (assembled_inBounds start parts)
  have hwithin : c.score.Within c.score.extent := ⟨rfl, hbounds⟩
  exact ⟨hbounds, fun _ _ => sequenceNamed?_lt, fun _ _ => characterNamed?_lt,
    fun _ _ => locationNamed?_lt, fun clock operation => Strict.perform_eq clock operation hwithin,
    Strict.current_eq hbounds, Strict.queuedIds_eq hbounds, Strict.setLocation_eq c.score⟩

/-
A sequence is added, and the references are found anew, while a delayed group waits that cues it.
-/
def interlude : List (Turn SeededSource) :=
  let speech := Step.mk { id := 2, command := .speak .normal, characterRef := some "ann" } []
  let cue := Step.mk { id := 3, command := .setSequence none true, content := "coda" } []
  let group := Step.mk { id := 1, command := .group, delay := 8.0 } [speech, cue]
  let coda := Step.mk { id := 4, command := .sample, content := "theme" } []
  [ .add (.sequence { id := "theme", steps := [group] })
  , .add (.character { id := "ann" })
  , .init
  , .act (Clock.held default) .next
  , .add (.sequence { id := "coda", steps := [coda], shuffle := true })
  , .init
  , .act (Clock.held default) (.playSequence "coda")
  , .act (Clock.held (Instant.ofNanos 9 0)) .runDue ]

theorem interlude_stays_in_bounds
    : let opened := opening ⟨0, 0, by decide⟩ [] (SeededSource.ofSeed 7)
      (∀ turn ∈ interlude, turn.Unresolved) ∧ (opened.run interlude).score.InBounds := by
  have hturns : ∀ turn ∈ interlude, turn.Unresolved := by
    simp [interlude, Turn.Unresolved, Part.Unresolved, Step.instructions, Step.instructionsOfAll]
  exact ⟨hturns, (run_stays_in_bounds _ [] (SeededSource.ofSeed 7) interlude hturns).1⟩

end Chronicle

end Narrative
