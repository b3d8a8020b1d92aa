import Headroom.Pool.Snapshot
import Headroom.Report.Duration
import Headroom.Veto

/-!
# One-line reports

The state of a pool in one line, and the reason for a decision. Both have limited room.
-/

namespace Headroom.Report

open Pool

/-- The blocking ratio, if it rests on enough samples. -/
def ratio (e : Estimate Float) : Bytes :=
  if e.sufficient then Bytes.clip 23 (Fixed.render 2 e.beta) else text "n/a"

def statusLine (s : Snapshot) : Bytes :=
  Bytes.clip 255 <|
    text "[" ++ Phase.label s.phase ++ text "/" ++ Scaling.Trend.label s.trend
      ++ text "] workers=" ++ Bytes.ofInt s.active ++ text " beta=" ++ ratio s.beta
      ++ text " (" ++ Bytes.ofNat s.beta.count ++ text " samples) " ++ Fixed.render 1 s.throughput
      ++ text " tasks/s avg=" ++ duration s.avgLatency ++ text " queued=" ++ Bytes.ofNat s.queued
      ++ text " done=" ++ Bytes.ofNat s.completed ++ text " failed=" ++ Bytes.ofNat s.failed

/-- Why a batch is run in parallel, or why it is not. A reason without a name is unknown. -/
def explainReason (reason : Option Veto.Reason) (items : Nat) (beta : Float)
    (policy : Veto.Policy Float) : Bytes :=
  let vetoed (s : Bytes) := text "Parallelism vetoed: " ++ s
  Bytes.clip 199 <| match reason with
    | none => vetoed (text "UNKNOWN")
    | some .none =>
      text "Parallel execution approved for " ++ Bytes.ofNat items ++ text " items (beta=" ++
        Fixed.render 2 beta
        ++ text ")"
    | some .notEnoughItems =>
      vetoed (text "NOT_ENOUGH_ITEMS (" ++ Bytes.ofNat items ++ text " < " ++
        Bytes.ofNat policy.minItems ++ text ")")
    | some .lowSpeedup =>
      vetoed (text "LOW_ESTIMATED_SPEEDUP (below " ++ Fixed.render 2 policy.minSpeedup ++ text "x)")
    | some .cliffDetected => vetoed (text "CLIFF_DETECTED at or below the intended thread count")
    | some .contentionLow =>
      vetoed (text "CONTENTION_ALREADY_LOW (beta=" ++ Fixed.render 2 beta ++ text " >= "
        ++ Fixed.render 2 (policy.contentionBeta.getD 0.0) ++ text ")")

def explain (d : Veto.Decision Float) (policy : Veto.Policy Float) : Bytes :=
  explainReason (some d.reason) d.items d.beta policy

end Headroom.Report
