import Narrative.Instant.Basic

/-!
This module contains the clocks that playback reads.
-/

namespace Narrative

/--
A clock by what it reads. A reading may depend on all that went on outside before it, so it is taken
from the same source as chance and gives the source that is left. Nothing keeps a clock from moving
between two readings, nor from going back.
-/
structure Clock (ρ : Type) where
  read : ρ → Instant × ρ

namespace Clock

def held (now : Instant) : Clock ρ :=
  ⟨fun source => (now, source)⟩

instance : Coe Instant (Clock ρ) := ⟨held⟩

end Clock

end Narrative
