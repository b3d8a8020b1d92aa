import Headroom.Bytes
import Headroom.Sampling.Sample

/-!
# Scaling rule

When tasks mostly wait, another worker helps; when they mostly compute, one too many hurts. A worker
is added at once when the blocking ratio reaches the threshold, and removed only after an unbroken
run of low readings.
-/

namespace Headroom.Scaling

/-- What the pool did about its size. -/
inductive Trend
  | stable | up | down
deriving Repr, DecidableEq

def Trend.all : List Trend := [stable, up, down]

def Trend.name : Trend → Bytes
  | stable => text "stable"
  | up => text "scaling_up"
  | down => text "scaling_down"

/-- Trends by number. -/
def Trend.ofCode? : Int → Option Trend
  | 0 => some stable
  | 1 => some up
  | 2 => some down
  | _ => none

structure Rules where
  minWorkers : Int := 1
  maxWorkers : Int := 4
  /-- From this blocking ratio on, waiting dominates. -/
  blockingThreshold : Float := 0.3
  /-- This many low readings in a row remove a worker. -/
  hysteresisTicks : Int := 3

structure Verdict where
  trend : Trend
  /-- One worker more, one fewer, or neither. -/
  delta : Int
deriving Repr, DecidableEq

def Verdict.hold : Verdict := ⟨.stable, 0⟩

/-- Whether a reading says that waiting dominates. -/
def Rules.high (r : Rules) (e : Estimate Float) : Bool := r.blockingThreshold ≤ e.beta

/-- The verdict on a reading after a run of `streak` low ones, and the length of the run that goes
on. A reading without enough samples ends the run. The length is kept in a word of 32 bits with a
sign. -/
def Rules.evaluate (r : Rules) (streak : Int32) (e : Estimate Float) (active : Int) :
    Verdict × Int32 :=
  if !e.sufficient then (.hold, 0)
  else if r.high e then (if active < r.maxWorkers then ⟨.up, 1⟩ else .hold, 0)
  else if r.hysteresisTicks ≤ (streak + 1).toInt ∧ r.minWorkers < active then (⟨.down, -1⟩, 0)
  else (.hold, streak + 1)

end Headroom.Scaling
