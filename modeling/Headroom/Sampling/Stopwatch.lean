import Headroom.Fault
import Headroom.Sampling.Sample

/-!
# Timing one task

A stopwatch is started before a task and stopped after it. It reads the clock and a counter of
computing time; the counter may have no reading, and then the computing time is unmeasured.
-/

namespace Headroom

/-- What a counter of computing time answers: a number of nanoseconds, nothing, or a fault. -/
abbrev Reading := Except Fault (Option Int)

/-- The two readings at the beginning of a task. -/
structure Stopwatch where
  began : Int := 0
  cpu : Option Int := none
deriving Repr, DecidableEq

namespace Stopwatch

/-- The computing time between two readings, if both are there and time did not run backwards. -/
def elapsedCpu? (first last : Option Int) : Option Int := do
  let a ← first
  let b ← last
  if a ≤ b then some (b - a) else none

/-- The sample for a task that ends now. -/
def stop (w : Stopwatch) (threads now : Int) (cpu : Option Int) : Sample :=
  let used := elapsedCpu? w.cpu cpu
  { wall := now - w.began, cpu := used.getD 0, measured := used.isSome, threads, finishedAt := now }

end Stopwatch

end Headroom
