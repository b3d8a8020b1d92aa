import Headroom.Fault
import Headroom.Number.Arithmetic

/-!
# Levels and their analysis

A level is a measurement at one number of threads. The analysis of several levels tells where
throughput collapses, and which number of threads is best before that.
-/

namespace Headroom.Profile

/-- What was measured at one number of threads. Times are in nanoseconds. -/
structure Level (α : Type) where
  threads : Int
  /-- Operations per second. -/
  throughput : α
  p99 : Int
  p50 : Int
  operations : Nat
  /-- Latencies behind the quantiles. -/
  samples : Nat
  elapsed : Int

structure Analysis (α : Type) where
  levels : List (Level α)
  optimal : Int
  /-- The number of threads at which throughput has collapsed. -/
  cliff : Option Int
  /-- The share of the best throughput that is lost there. -/
  severity : α
  complete : Bool
  /-- What ended the run early. -/
  failure : Option Bytes

namespace Analysis

variable {α : Type}

/-- The level measured with a number of threads. -/
def level? (a : Analysis α) (threads : Int) : Option (Level α) :=
  a.levels.find? (·.threads == threads)

/-- The highest throughput, at least zero. -/
def peak [OfNat α 0] [LT α] [DecidableLT α] (a : Analysis α) : α :=
  a.levels.foldl (fun best l => if best < l.throughput then l.throughput else best) 0

/-- The fault of a run that was ended early. -/
def fault? (a : Analysis α) : Option Fault :=
  if a.complete then none else some (.incompleteProfile a.levels.length a.failure)

end Analysis

section
variable {α : Type} [OfNat α 0] [OfNat α 1] [Sub α] [Mul α] [Div α] [LT α] [LE α] [DecidableLT α]
  [DecidableLE α]

/-- The better of the best level so far and a further one. Of two equally good ones the earlier one
stays. -/
def better (best l : Level α) : Level α := if best.throughput < l.throughput then l else best

/-- The best level so far after a look at all of some levels. -/
def bestOf (best : Level α) (levels : List (Level α)) : Level α := levels.foldl better best

/-- Whether throughput has collapsed from the best one so far. -/
def collapsed (drop best now : α) : Bool := 0 < best && now ≤ best * (1 - drop)

/-- The share that is lost, held to the range from 0 to 1. -/
def loss (best now : α) : α := clamp 0 1 ((best - now) / best)

/-- Looks for the cliff behind the best level so far: the best level before it, and the level of the
cliff. -/
def findCliff (drop : α) (best : Level α) : List (Level α) → Level α × Option (Level α)
  | [] => (best, none)
  | l :: rest =>
    if collapsed drop best.throughput l.throughput then (best, some l)
    else findCliff drop (better best l) rest

/-- Where throughput collapses, and the best number of threads before that. Without a cliff, all
levels are compared with the best one once more. -/
def analyze (levels : List (Level α)) (complete : Bool) (drop : α) : Analysis α :=
  match levels with
  | [] => { levels, optimal := 1, cliff := none, severity := 0, complete, failure := none }
  | first :: rest =>
    let (best, cliff) := findCliff drop first rest
    let best := if cliff.isNone then bestOf best levels else best
    { levels
      optimal := best.threads
      cliff := cliff.map Level.threads
      severity := (cliff.map fun l => loss best.throughput l.throughput).getD 0
      complete
      failure := none }

end

end Headroom.Profile
