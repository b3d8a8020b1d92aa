import Headroom.Pool.Phase
import Headroom.Scaling

/-!
# Snapshots of a pool
-/

namespace Headroom.Pool

/-- What a pool publishes about itself, once for each look of the monitor. -/
structure Snapshot where
  active : Int := 0
  beta : Estimate Float := ⟨0.0, 0, 0, false⟩
  /-- Tasks per second since the last look. -/
  throughput : Float := 0.0
  /-- Mean duration of the tasks that finished since the last look, in nanoseconds. -/
  avgLatency : Int := 0
  queued : Nat := 0
  completed : Nat := 0
  failed : Nat := 0
  /-- Absent for a phase that has no name. -/
  phase : Option Phase := some .created
  /-- Absent for a trend that has no name. -/
  trend : Option Scaling.Trend := some .stable
  seq : Nat := 0
  timestamp : Int := 0

/-- The name of a phase, or that it has none. -/
def Phase.label (p : Option Phase) : Bytes := (p.map Phase.name).getD (text "unknown")

end Headroom.Pool

namespace Headroom.Scaling

/-- The name of a trend, or that it has none. -/
def Trend.label (t : Option Trend) : Bytes := (t.map Trend.name).getD (text "unknown")

end Headroom.Scaling
