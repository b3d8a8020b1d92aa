import Headroom.Fault
import Headroom.Number.Arithmetic

/-!
# Profiling configuration
-/

namespace Headroom

structure Profile.Config where
  maxThreads : Int := 32
  /-- Time that each level is measured for. -/
  durationMs : Int := 1000
  /-- The share of the best throughput whose loss counts as a cliff. -/
  cliffDrop : Float := 0.2
  stopAtCliff : Bool := false
  /-- Latencies that each thread keeps. -/
  reservoir : Nat := 4096

/-- The first thing that makes the configuration unusable. -/
def Profile.Config.problem? (c : Profile.Config) : Option Problem :=
  if c.maxThreads < 1 then some (.maxThreads c.maxThreads)
  else if c.durationMs ≤ 0 then some .levelDuration
  else if ¬(0.0 < c.cliffDrop ∧ c.cliffDrop < 1.0) then some (.cliffDrop c.cliffDrop)
  else if c.reservoir < 1 then some .latencyReservoir
  else none

/-- The time of a level in nanoseconds. -/
def Profile.Config.span (c : Profile.Config) : Int := ofMilliseconds c.durationMs

end Headroom
