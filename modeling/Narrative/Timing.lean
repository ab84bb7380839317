/-!
This module contains the tempo of a score: how delays, which are authored in pulses, and the ticks of
automatic playback translate into milliseconds.
-/

namespace Narrative

structure Timing where
  beatsPerMinute : Float := 120.0
  pulsesPerBeat : Float := 4.0
  /-- The authored length of a beat. Playback does not use it. -/
  durationPerBeat : Nat := 4
  swing : Float := 1.0
  timeScale : Float := 1.0
deriving Inhabited

namespace Timing

def timeScaleGuard : Float :=
  0.0001

def pulseMs (t : Timing) : Float :=
  60000.0 / t.beatsPerMinute / t.pulsesPerBeat

def delayMs (t : Timing) (pulses : Float) : Float :=
  pulses * t.pulseMs * (1.0 / (t.timeScale + timeScaleGuard))

def tickMs (t : Timing) : Float :=
  t.pulseMs * t.swing / (t.timeScale + timeScaleGuard)

end Timing

end Narrative
