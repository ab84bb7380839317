/-!
This module contains the sources of chance that shuffled sequences draw from.
-/

namespace Narrative

/--
A source of numbers. `draw source low high` asks for a number from `low` to `high` and gives it along
with the source that is left. Nothing keeps a source from giving another number than was asked for.
-/
class RandomSource (ρ : Type) where
  draw : ρ → Nat → Nat → Nat × ρ

structure SeededSource where
  state : UInt64

namespace SeededSource

def ofSeed (seed : Nat) : SeededSource :=
  ⟨seed.toUInt64⟩

def next (source : SeededSource) : UInt64 × SeededSource :=
  let state := source.state + 0x9E3779B97F4A7C15
  let mixed := (state ^^^ (state >>> 30)) * 0xBF58476D1CE4E5B9
  let mixed := (mixed ^^^ (mixed >>> 27)) * 0x94D049BB133111EB
  (mixed ^^^ (mixed >>> 31), ⟨state⟩)

def draw (source : SeededSource) (low high : Nat) : Nat × SeededSource :=
  if low ≥ high then
    (low, source)
  else
    let (bits, source) := source.next
    (low + bits.toNat % (high - low + 1), source)

instance : RandomSource SeededSource := ⟨draw⟩

end SeededSource

end Narrative
