import Headroom.Latency.Quantile
import Headroom.Log
import Headroom.Profile.Config
import Headroom.Profile.Level

/-!
# Profiling runs

A workload is called again and again by 1, 2, 4, … threads at once, each level for the same time.
Each thread has its own time, which only the calls move. A call that raises a fault ends the run;
what was measured before is still analysed.
-/

namespace Headroom.Profile

/-- What one call does: it takes some nanoseconds, or raises a fault. -/
inductive Call
  | takes (time : Int)
  | raises (fault : Fault)

/-- The calls of a workload by level, thread and number, each counted from 0. -/
abbrev Workload := Nat → Nat → Nat → Call

/-! ### Thread counts -/

/-- Numbers from `n` on, each twice the one before, as long as they do not exceed the most. -/
def doublings (most n : Nat) : List Nat :=
  if h : 0 < n ∧ n ≤ most / 2 then n :: doublings most (2 * n) else [n]
termination_by most - n
decreasing_by omega

/-- The numbers of threads to measure: powers of two, and the most threads at the end. -/
def threadCounts (most : Int) : List Nat :=
  if most < 1 then []
  else
    let counts := doublings most.toNat 1
    if counts.getLast? = some most.toNat then counts else counts ++ [most.toNat]

/-! ### One level -/

/-- What a thread has done: the time that has passed for it, and the latencies of its calls. -/
structure Thread where
  elapsed : Int
  latencies : Reservoir

/-- A thread calls again until its time is up. Each call takes at least a nanosecond, so `span`
calls are enough. -/
def callUntil (calls : Nat → Call) (span : Int) : (fuel number : Nat) → Thread → Except Fault Thread
  | 0, _, t => .ok t
  | fuel + 1, number, t =>
    if span ≤ t.elapsed then .ok t
    else match calls number with
      | .raises f => .error f
      | .takes time => callUntil calls span fuel (number + 1) ⟨t.elapsed + time,
          t.latencies.add time⟩

/-- A thread of a level; each one draws from its own generator. -/
def runThread (calls : Nat → Call) (span : Int) (capacity number : Nat) : Except Fault Thread :=
  callUntil calls span span.toNat 0 ⟨0, .create capacity (Reservoir.defaultSeed + number.toUInt64)⟩

/-- Operations per second. -/
def rate (operations : Nat) (elapsed : Int) : Float :=
  let seconds := Float.ofInt elapsed / 1000000000.0
  if 0.0 < seconds then Float.ofNat operations / seconds else 0.0

/-- The level that some threads measured together. -/
def Level.ofThreads (threads : List Thread) : Level Float :=
  let kept := threads.map (·.latencies.kept)
  let operations := kept.foldl (fun n k => n + k.seen) 0
  let elapsed := (threads.map Thread.elapsed).foldl max 0
  { threads := threads.length
    throughput := rate operations elapsed
    p99 := Quantile.merged kept (0.99 : Float)
    p50 := Quantile.merged kept (0.5 : Float)
    operations
    samples := kept.foldl (fun n k => n + k.values.size) 0
    elapsed }

/-- Measures a level, unless a call raises a fault. Every thread goes on to its own end, and of
several faults the one of the first thread by number is reported. Where threads race, each stops
before its next call once one has met a fault, and any of them may be the first; the level is lost
all the same. What is proved of a failed level holds of the fault of any of its threads. -/
def runLevel (calls : Nat → Nat → Call) (threads : Nat) (span : Int) (capacity : Nat) :
    Except Fault (Level Float) :=
  ((List.range threads).mapM fun number => runThread (calls number) span capacity number).map
    Level.ofThreads

/-! ### All levels -/

def entry (level : Log.Level) (body : Bytes) : Log.Entry := ⟨level, text "profiler", body⟩

/-- What a measured level says. -/
def Level.entry (l : Level Float) : Log.Entry :=
  let micros (ns : Int) := Bytes.ofInt (ns.tdiv 1000) ++ text "us"
  Profile.entry .info <| Bytes.padLeft 2 (Bytes.ofInt l.threads) ++ text " thread(s): " ++
    Fixed.render 1 l.throughput
    ++ text " ops/s p50=" ++ micros l.p50 ++ text " p99=" ++ micros l.p99

/-- What a level with a failing call says. -/
def failureEntry (threads : Nat) (reason : Bytes) : Log.Entry :=
  entry .warn (text "workload failed at " ++ Bytes.ofNat threads ++ text " thread(s): " ++ reason)

/-- Levels are measured one after the other. The run ends at a failing call, and at a cliff if it is
to. -/
def runLevels (c : Config) (w : Workload) : (index : Nat) → (done : List (Level Float)) → List Nat →
    Analysis Float × List Log.Entry
  | _, done, [] => (analyze done true c.cliffDrop, [])
  | index, done, threads :: rest =>
    match runLevel (w index) threads c.span c.reservoir with
    | .error f =>
      ({ analyze done false c.cliffDrop with failure := some f.reason },
        [failureEntry threads f.reason])
    | .ok l =>
      let done := done ++ [l]
      let soFar := analyze done true c.cliffDrop
      if c.stopAtCliff && soFar.cliff.isSome then (soFar, [l.entry])
      else
        let (a, entries) := runLevels c w (index + 1) done rest
        (a, l.entry :: entries)

/-- Profiles a workload: the analysis, and what the run says. -/
def run (c : Config) (w : Workload) : Except Problem (Analysis Float × List Log.Entry) :=
  match c.problem? with
  | some p => .error p
  | none => .ok (runLevels c w 0 [] (threadCounts c.maxThreads))

/-- Profiles with the defaults for all but the threads and the time of a level. -/
def profile (w : Workload) (maxThreads durationMs : Int) :
    Except Problem (Analysis Float × List Log.Entry) :=
  run { maxThreads, durationMs } w

/-! ### Short functions -/

/-- Several calls one after the other as one: their times together, or the first fault. -/
def together (calls : Nat → Call) (first : Nat) : (count : Nat) → Call
  | 0 => .takes 0
  | count + 1 =>
    match together calls first count, calls (first + count) with
    | .raises f, _ => .raises f
    | .takes _, .raises f => .raises f
    | .takes a, .takes b => .takes (a + b)

/-- The workload that calls a function so many times at once. -/
def Workload.batched (count : Nat) (w : Workload) : Workload :=
  fun level thread number => together (w level thread) (number * count) count

/-- Profiles a short function by calling it several times for each measured call. -/
def benchmark (w : Workload) (iterations maxThreads durationMs : Int) :
    Except Problem (Analysis Float × List Log.Entry) :=
  if iterations < 1 then .error (.iterations iterations)
  else profile (w.batched iterations.toNat) maxThreads durationMs

end Headroom.Profile
