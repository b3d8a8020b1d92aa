import Headroom.Number.Arithmetic

/-!
# Samples and estimates

A sample is one finished task: how long it took and how much of that it spent computing. The
blocking ratio of several samples is the share of their time that was not spent computing.
-/

namespace Headroom

/-- One finished task. Times are in nanoseconds. -/
structure Sample where
  wall : Int := 0
  /-- Meaningless unless it was measured. -/
  cpu : Int := 0
  measured : Bool := true
  threads : Int := 1
  finishedAt : Int := 0
deriving Repr, DecidableEq

/-- The moment at which the task began. -/
def Sample.beganAt (s : Sample) : Int := s.finishedAt - s.wall

/-- A blocking ratio with what it rests on: 1 is all waiting, 0 all computing. -/
structure Estimate (α : Type) where
  beta : α
  count : Nat
  /-- From the earliest beginning to the latest end. -/
  span : Int
  /-- Without enough samples the ratio is not to be acted on. -/
  sufficient : Bool
deriving Repr

/-- The time from the earliest beginning to the latest end of some samples. -/
def Sample.span : List Sample → Int
  | [] => 0
  | s :: rest =>
    rest.foldl (fun latest t => max latest t.finishedAt) s.finishedAt
      - rest.foldl (fun earliest t => min earliest t.beganAt) s.beganAt

/-- The share of the time that was not spent computing, held to the range from 0 to 1. -/
def blockingRatio (cpu wall : Int) : Float :=
  clamp 0.0 1.0 (1.0 - Float.ofInt cpu / Float.ofInt wall)

/-- The estimate from some samples, of which at least `minSamples` are needed. -/
def Estimate.ofSamples (minSamples : Nat) (samples : List Sample) : Estimate Float :=
  let wall := samples.foldl (fun t s => t + s.wall) 0
  let cpu := samples.foldl (fun t s => t + s.cpu) 0
  let sufficient := minSamples ≤ samples.length && 0 < wall
  { beta := if sufficient then blockingRatio cpu wall else 0.0
    count := samples.length
    span := Sample.span samples
    sufficient }

end Headroom
