import Narrative.Proofs.Frame
import Narrative.Proofs.Invariant

/-!
This module contains the replay of a run from its record: the world and the visible characters are
what the recorded events make of those at the start.
-/

namespace Narrative

structure Scene where
  world : World
  visible : List Bool

inductive Effect where
  | none
  | moves (index : Nat)
  | temperature (value : Float) (units : TemperatureUnits)
  | weather (weather : Weather)
  | date (date : Instant)
  | paints (layer : Layer) (color : String)
  | shows (index : Nat)

def Step.effect (step : Step) : Effect :=
  match step.command, step.target with
  | .setLocation, .location index _ => .moves index
  | .setTemperature (some value) units, _ => .temperature value units
  | .setWeather (some weather), _ => .weather weather
  | .setDate (some date), _ | .setTime (some date), _ => .date date
  | .setBackColor, _ => .paints .back (Text.trimmed step.content)
  | .setMidColor, _ => .paints .mid (Text.trimmed step.content)
  | .setForeColor, _ => .paints .fore (Text.trimmed step.content)
  | .speak _, .character index _ | .think, .character index _ => .shows index
  | .sing _, .character index _ | .choice, .character index _ => .shows index
  | _, _ => .none

namespace Scene

def after (locations : List Location) (pinned : List Bool) (scene : Scene) (effect : Effect) :
    Scene :=
  match effect with
  | .none => scene
  | .moves index => { scene with world.location := locations[index]?.getD scene.world.location }
  | .temperature temperature units =>
    { scene with world := { scene.world with temperature, units } }
  | .weather weather => { scene with world.weather := weather }
  | .date date => { scene with world.date := date }
  | .paints layer color =>
    { scene with world.palette := scene.world.palette.paint layer color }
  | .shows index =>
    if pinned[index]? = some true then scene
    else { scene with visible := scene.visible.set index true }

def replay (locations : List Location) (pinned : List Bool) (events : List Event)
    (scene : Scene) : Scene :=
  events.foldl (fun scene event => scene.after locations pinned event.step.effect) scene

variable {locations : List Location} {pinned : List Bool}

theorem after_visible_of_pinned (scene : Scene) (effect : Effect) {index : Nat}
    (h : pinned[index]? = some true)
    : (scene.after locations pinned effect).visible[index]? = scene.visible[index]? := by
  cases effect with
  | shows other =>
    simp only [after]
    split
    . rfl
    . next hfree =>
      have : other ≠ index := by
        intro heq
        rw [heq] at hfree
        exact hfree h
      simp [this]
  | _ => rfl

theorem after_visible_of_visible (scene : Scene) (effect : Effect) {index : Nat}
    (h : scene.visible[index]? = some true)
    : (scene.after locations pinned effect).visible[index]? = some true := by
  cases effect with
  | shows other =>
    simp only [after]
    split
    . exact h
    . by_cases heq : other = index
      . have := List.getElem?_eq_some_iff.mp h
        simp [heq, this.1]
      . simp [heq, h]
  | _ => exact h

theorem replay_append (events others : List Event) (scene : Scene)
    : scene.replay locations pinned (events ++ others)
        =
      (scene.replay locations pinned events).replay locations pinned others := by
  simp [replay]

theorem replay_visible_of_pinned (events : List Event) (scene : Scene) {index : Nat}
    (h : pinned[index]? = some true)
    : (scene.replay locations pinned events).visible[index]? = scene.visible[index]? := by
  induction events generalizing scene with
  | nil => rfl
  | cons event events ih =>
    simp only [replay, List.foldl_cons]
    rw [← after_visible_of_pinned scene event.step.effect h]
    apply ih

theorem replay_visible_of_visible (events : List Event) (scene : Scene) {index : Nat}
    (h : scene.visible[index]? = some true)
    : (scene.replay locations pinned events).visible[index]? = some true := by
  induction events generalizing scene with
  | nil => exact h
  | cons event events ih =>
    simp only [replay, List.foldl_cons]
    apply ih
    apply after_visible_of_visible scene event.step.effect h

end Scene

namespace Score

def scene (s : Score) : Scene :=
  ⟨s.world, s.characters.map (·.visible)⟩

def pinned (s : Score) : List Bool :=
  s.characters.map (·.pinnedHidden)

end Score

theorem Character.reveal_pinnedHidden (c : Character) : c.reveal.pinnedHidden = c.pinnedHidden := by
  unfold reveal
  split
  . rfl
  . rfl

theorem map_reveal_visible (characters : List Character) (index : Nat)
    : (characters.modify index Character.reveal).map (·.visible)
        =
      if (characters.map (·.pinnedHidden))[index]? = some true then characters.map (·.visible)
      else (characters.map (·.visible)).set index true := by
  apply List.ext_getElem?
  intro i
  by_cases h : index = i
  . subst h
    cases hget : characters[index]? with
    | none =>
      have := List.getElem?_eq_none_iff.mp hget
      simp [this]
    | some c =>
      have hlt : index < (characters.map (·.visible)).length := by
        rw [List.length_map]
        exact (List.getElem?_eq_some_iff.mp hget).1
      rw [List.getElem?_map, List.getElem?_map, List.getElem?_modify_eq, hget]
      cases hpinned : c.pinnedHidden with
      | true => simp [hget, hpinned, Character.reveal]
      | false => simp [hpinned, Character.reveal, List.getElem?_set_self hlt]
  . split
    . simp [h]
    . simp [h]

theorem World.after_eq (w : World) (visible : List Bool) (locations : List Location)
    (pinned : List Bool) (step : Step)
    : w.after locations step = (Scene.after locations pinned ⟨w, visible⟩ step.effect).world := by
  unfold World.after Step.effect
  generalize step.command = command
  generalize step.target = target
  cases command with
  | setLocation =>
    cases target with
    | location index =>
      dsimp only [Scene.after]
      cases locations[index]? with
      | none => rfl
      | some => rfl
    | _ => rfl
  | setTemperature value => cases value <;> rfl
  | setWeather weather => cases weather <;> rfl
  | setDate date => cases date <;> rfl
  | setTime date => cases date <;> rfl
  | speak | think | sing | choice =>
    cases target with
    | character index =>
      dsimp only [Scene.after]
      split
      . rfl
      . rfl
    | _ => rfl
  | _ => rfl

theorem revealTarget_visible (characters : List Character) (w : World) (locations : List Location)
    (step : Step)
    : (revealTarget characters step).map (·.visible)
        =
      (Scene.after locations (characters.map (·.pinnedHidden))
        ⟨w, characters.map (·.visible)⟩ step.effect).visible := by
  unfold revealTarget Step.effect
  generalize step.command = command
  generalize step.target = target
  cases command with
  | speak | think | sing | choice =>
    cases target with
    | character index =>
      change (characters.modify index Character.reveal).map (·.visible) = _
      rw [map_reveal_visible]
      dsimp only [Scene.after]
      split
      . rfl
      . rfl
    | _ => rfl
  | setTemperature value => cases value <;> cases target <;> rfl
  | setWeather weather => cases weather <;> cases target <;> rfl
  | setDate date => cases date <;> cases target <;> rfl
  | setTime date => cases date <;> cases target <;> rfl
  | _ => cases target <;> rfl

theorem revealTarget_pinnedHidden (characters : List Character) (step : Step)
    : (revealTarget characters step).map (·.pinnedHidden) = characters.map (·.pinnedHidden) := by
  unfold revealTarget
  split
  . split
    . apply map_modify_eq Character.reveal_pinnedHidden
    . rfl
  . rfl

theorem Score.record_scene (s : Score) (now : Instant) (sequenceId : String) (step : Step)
    : (s.record now sequenceId step).scene = s.scene.after s.locations s.pinned step.effect := by
  have hworld := s.world.after_eq (s.characters.map (·.visible)) s.locations s.pinned step
  have hvisible := revealTarget_visible s.characters s.world s.locations step
  unfold record scene
  rw [hworld, hvisible]
  rfl

/--
The scene of `s` follows from the scene of `start` and the record, which is what was drained so far
and what is in `s`. Events are numbered without a gap, and those recorded `before` come first.
-/
structure Accounted (start : Score) (before drained : List Event) (s : Score) : Prop where
  locations : s.locations = start.locations
  pinned : s.pinned = start.pinned
  scene : s.scene
    = start.scene.replay start.locations start.pinned (drained ++ s.events.toList)
  numbers : (drained ++ s.events.toList).map (·.number) = List.range' 1 s.eventCount
  grows : before <+: drained ++ s.events.toList

namespace Accounted

variable {start : Score} {before drained : List Event} {s : Score}

theorem record (h : Accounted start before drained s) (now : Instant) (sequenceId : String)
    (step : Step)
    : Accounted start before drained (s.record now sequenceId step) where
  locations := h.locations
  pinned := by
    rw [← h.pinned]
    exact revealTarget_pinnedHidden s.characters step
  scene := by
    rw [s.record_scene, h.scene, h.locations, h.pinned]
    simp [Score.record, Scene.replay]
  numbers := by
    have := h.numbers
    simp only [Score.record, Array.toList_push, ← List.append_assoc, List.map_append, this,
      List.range'_concat]
    simp
    omega
  grows := by
    simp only [Score.record, Array.toList_push, ← List.append_assoc]
    exact h.grows.trans (List.prefix_append _ _)

theorem length_eq (h : Accounted start before drained s)
    : (drained ++ s.events.toList).length = s.eventCount := by
  have := congrArg List.length h.numbers
  simpa using this

theorem assembled (now : Instant) (parts : List Part)
    : Accounted (.assembled now parts) [] [] (.assembled now parts) := by
  obtain ⟨_, _, _, _, _, _, _, h⟩ := Score.assembled_eq now parts
  rw [h]
  exact ⟨rfl, rfl, rfl, rfl, List.nil_prefix⟩

theorem congr (h : Accounted start before drained s) {s' : Score} (hworld : s'.world = s.world)
    (hcharacters : s'.characters = s.characters) (hlocations : s'.locations = s.locations)
    (hevents : s'.events = s.events) (hcount : s'.eventCount = s.eventCount)
    : Accounted start before drained s' where
  locations := by rw [hlocations, h.locations]
  pinned := by rw [← h.pinned, Score.pinned, hcharacters, Score.pinned]
  scene := by rw [hevents, ← h.scene, Score.scene, hworld, hcharacters, Score.scene]
  numbers := by rw [hevents, hcount, h.numbers]
  grows := by
    rw [hevents]
    exact h.grows

end Accounted

variable {ρ : Type} [RandomSource ρ]

theorem stable_accounted (start : Score) (before drained : List Event)
    : Performance.Stable (fun _ => True)
        (fun p : Performance ρ => Accounted start before drained p.score) where
  kept clock := {
    substep := fun _ _ => trivial
    draw := fun h _ _ => ⟨trivial, h.congr rfl rfl rfl rfl rfl⟩
    postpone := fun _ _ h => h.congr rfl rfl rfl rfl rfl
    carryOut := by
      intro p step sequenceId _ _ h
      have := h.record (p.read clock).1 sequenceId step
      obtain ⟨_, _, _, hsteer⟩ := (p.record clock sequenceId step).score.steer_eq step
      unfold Performance.carryOut
      dsimp
      rw [hsteer]
      exact this.congr rfl rfl rfl rfl rfl
  }
  read _ h := h
  choose {p} h := by
    obtain ⟨_, _, hchoose⟩ := p.score.choose_eq
    rw [hchoose]
    exact h.congr rfl rfl rfl rfl rfl
  selectAt _ h _ := h.congr rfl rfl rfl rfl rfl
  enqueue h _ := h.congr rfl rfl rfl rfl rfl
  trigger _ h := h.congr rfl rfl rfl rfl rfl
  setPlaying h := h.congr rfl rfl rfl rfl rfl
  scheduleTick {p} now h _ := by
    obtain ⟨_, _, hschedule⟩ := p.score.scheduleTick_eq now
    rw [hschedule]
    exact h.congr rfl rfl rfl rfl rfl
  stop {p} h := by
    obtain ⟨_, _, hstop⟩ := p.score.stop_eq
    rw [hstop]
    exact h.congr rfl rfl rfl rfl rfl
  pop h _ := ⟨fun _ => trivial, h.congr rfl rfl rfl rfl rfl⟩
  spend h := h.congr rfl rfl rfl rfl rfl
  reset h := h.congr rfl rfl rfl rfl rfl

namespace Chronicle

variable {start : Score} {before : List Event} {c : Chronicle ρ}

theorem act_accounted (h : Accounted start before c.drained c.score) (clock : Clock ρ)
    (operation : Operation)
    : Accounted start before (c.act clock operation).drained (c.act clock operation).score := by
  cases hdrains : operation.drains with
  | true =>
    -- what leaves the score stays in the record
    have hlog : c.log ++ [] = c.log := List.append_nil _
    have : Accounted start before c.log c.score.clearEvents := by
      constructor
      . exact h.locations
      . exact h.pinned
      . exact h.scene.trans (congrArg _ hlog.symm)
      . exact (congrArg _ hlog).trans h.numbers
      . exact hlog.symm ▸ h.grows
    unfold act score
    dsimp only
    rw [if_pos hdrains, Performance.perform_of_drains _ hdrains]
    exact this
  | false =>
    have := (stable_accounted start before c.drained).perform clock operation
      (p := c.performance) (by simp [hdrains]) h
    simpa [act, score, hdrains] using this

theorem actAll_accounted (acts : List (Clock ρ × Operation))
    (h : Accounted start before c.drained c.score)
    : Accounted start before (c.actAll acts).drained (c.actAll acts).score := by
  induction acts generalizing c with
  | nil => exact h
  | cons act acts ih => exact ih (act_accounted h act.1 act.2)

/--
At any time of a run, the world and who is visible are those at the start after every event ever
recorded has had its effect, in the order of the numbers of the events. Who is pinned stays as at the
start, and who is visible stays so.
-/
theorem scene_eq_replay (now : Instant) (parts : List Part) (source : ρ)
    (acts later : List (Clock ρ × Operation))
    : let start := Score.assembled now parts
      let c := (opening now parts source).actAll acts
      c.score.scene = start.scene.replay start.locations start.pinned c.log
        ∧ c.log.map (·.number) = List.range' 1 c.log.length
        ∧ c.score.locations = start.locations
        ∧ c.score.pinned = start.pinned
        ∧ ∀ index : Nat,
            (start.pinned[index]? = some true →
              c.score.scene.visible[index]? = start.scene.visible[index]?)
            ∧ (c.score.scene.visible[index]? = some true →
                (c.actAll later).score.scene.visible[index]? = some true) := by
  intro start c
  have hopening : Accounted start [] (opening now parts source).drained
      (opening now parts source).score := Accounted.assembled now parts
  have hc : Accounted start [] c.drained c.score := actAll_accounted acts hopening
  refine ⟨hc.scene, ?_, hc.locations, hc.pinned, ?_⟩
  . rw [log, hc.length_eq]
    exact hc.numbers
  . intro index
    constructor
    . intro hpinned
      rw [hc.scene]
      exact Scene.replay_visible_of_pinned _ _ hpinned
    . intro hvisible
      have hlater : Accounted start c.log (c.actAll later).drained (c.actAll later).score :=
        actAll_accounted later { hc with grows := List.prefix_refl _ }
      obtain ⟨recorded, hrecorded⟩ := hlater.grows
      rw [hlater.scene, ← hrecorded, Scene.replay_append]
      apply Scene.replay_visible_of_visible
      rw [hc.scene] at hvisible
      exact hvisible

end Chronicle

end Narrative
