import Headroom.Number.Fixed

/-!
# Faults

Everything that can go wrong is a value: a problem in a configuration, a submission that the pool
turns down, a task that failed and a batch in which some did. A fault says what happened; its
wording is given in one place, by `Fault.message?`.
-/

namespace Headroom

/-- The families of faults that a caller can tell apart. -/
inductive Kind
  | configuration | submissionTimeout | poolFailure | taskCancelled | profiling | task | batch
  | general
  | invalidArgument | outOfRange | logic | outOfMemory | runtime
  /-- A value that carries no message was raised. -/
  | foreign
deriving Repr, DecidableEq

/-- What makes a configuration unusable. -/
inductive Problem
  | negative (what : Bytes) (got : Int)
  | failurePolicy (got : Bytes)
  | minWorkers (got : Int)
  | maxWorkers (got least : Int)
  | blockingThreshold (got : Float)
  | monitorInterval
  | hysteresisTicks (got : Int)
  | mailboxCapacity
  | windowSize
  | windowAge
  | windowCapacity
  | windowNoSamples
  | windowTooManySamples
  | mailboxEmpty
  | maxThreads (got : Int)
  | levelDuration
  | cliffDrop (got : Float)
  | latencyReservoir
  | minSpeedup (got : Float)
  | contentionBeta (got : Float)
  | iterations (got : Int)

/-- A bound that a number misses, with the number. -/
def Problem.bound (claim : String) (got : Bytes) : Bytes :=
  text claim ++ text " (got " ++ got ++ text ")"

/-- Fractions in problems have six places. -/
def Problem.amount (x : Float) : Bytes := Fixed.render 6 x

def Problem.message : Problem → Bytes
  | negative what got => what ++ bound " must be >= 0" (Bytes.ofInt got)
  | failurePolicy got => bound "failure_policy must be raise_on_first or collect_all"
      (39 :: got ++ [39])
  | minWorkers got => bound "min_workers must be >= 1" (Bytes.ofInt got)
  | maxWorkers got least =>
    bound "max_workers must be >= min_workers" (Bytes.ofInt got ++ text " < " ++ Bytes.ofInt least)
  | blockingThreshold got => bound "blocking_threshold must be in (0,1)" (amount got)
  | monitorInterval => text "monitor_interval must be > 0"
  | hysteresisTicks got => bound "hysteresis_ticks must be >= 1" (Bytes.ofInt got)
  | mailboxCapacity => text "mailbox_capacity must be >= 1"
  | windowSize => text "monitor window requires 1 <= min_samples <= capacity"
  | windowAge => text "monitor max_age must be >= 0"
  | windowCapacity => text "monitor capacity must be >= 1"
  | windowNoSamples => text "monitor min_samples must be >= 1"
  | windowTooManySamples => text "monitor min_samples must not exceed capacity"
  | mailboxEmpty => text "sample mailbox capacity must be >= 1"
  | maxThreads got => bound "max_threads must be >= 1" (Bytes.ofInt got)
  | levelDuration => text "duration_per_level must be > 0"
  | cliffDrop got => bound "cliff_drop must be in (0,1)" (amount got)
  | latencyReservoir => text "latency_reservoir must be >= 1"
  | minSpeedup got => bound "min_speedup must be > 0" (amount got)
  | contentionBeta got => bound "contention_beta must be in (0,1]" (amount got)
  | iterations got => bound "iterations must be >= 1" (Bytes.ofInt got)

inductive Fault
  /-- Raised by a function that a caller handed in. -/
  | raised (kind : Kind) (message : Bytes)
  | unusable (problem : Problem)
  /-- A bounded queue stayed full for as long as the caller would wait. -/
  | queueFull (capacity : Nat) (waitedMs : Int)
  /-- The pool takes no more tasks. -/
  | closed
  /-- The pool takes no more tasks because a worker could not measure one. -/
  | poolFailed (what : Bytes)
  | alreadyShutDown
  | noWorker
  /-- The workers were launched, but the monitor could not be. -/
  | noMonitor
  /-- The task was lost when a worker could not measure a task. -/
  | harness (what : Bytes)
  | cancelled
  | incompleteProfile (levels : Nat) (failure : Option Bytes)
  /-- The task with this index raised a fault. -/
  | task (index : Nat) (cause : Fault)
  /-- Some tasks of a batch raised faults. -/
  | batch (failures : List (Nat × Fault)) (total : Nat)

namespace Fault

def kind : Fault → Kind
  | raised kind _ => kind
  | unusable _ => .configuration
  | queueFull .. => .submissionTimeout
  | closed | poolFailed _ | alreadyShutDown | noWorker | harness _ => .poolFailure
  | noMonitor => .runtime
  | cancelled => .taskCancelled
  | incompleteProfile .. => .profiling
  | task .. => .task
  | batch .. => .batch

/-- A batch names at most this many of its failures. -/
def shownFailures : Nat := 8

def batchMessage (indices : List Nat) (total : Nat) : Bytes :=
  Bytes.ofNat indices.length ++ text " of " ++ Bytes.ofNat total ++ text " tasks failed ("
    ++ Bytes.join (text ", ") ((indices.take shownFailures).map Bytes.ofNat)
    ++ (if shownFailures < indices.length then text ", ..." else []) ++ text ")"

/-- The wording of a fault, which ends at a NUL byte. A foreign value has none. -/
def message? : Fault → Option Bytes
  | raised .foreign _ => none
  | raised .outOfMemory _ => some (text "std::bad_alloc")
  | raised _ message => some (Bytes.untilNul message)
  | unusable problem => some (Bytes.untilNul problem.message)
  | queueFull capacity waitedMs =>
    some (text "queue full (" ++ Bytes.ofNat capacity ++ text " tasks) after " ++
      Bytes.ofInt waitedMs ++ text "ms")
  | closed => some (text "pool is shut down")
  | poolFailed what => some (text "pool failed: worker harness error: " ++ what)
  | alreadyShutDown => some (text "cannot start a pool that has been shut down")
  | noWorker => some (text "could not launch any worker thread")
  | noMonitor => some (text "Resource temporarily unavailable")
  | harness what => some (text "worker harness failed: " ++ what)
  | cancelled => some (text "task cancelled by shutdown before it started")
  | incompleteProfile levels failure =>
    some (Bytes.untilNul (text "profiling aborted after " ++ Bytes.ofNat levels ++
      text " level(s): "
      ++ failure.getD (text "unknown workload error")))
  | task index cause =>
    some (text "task " ++ Bytes.ofNat index ++ text " failed: "
      ++ (message? cause).getD (text "non-standard exception"))
  | batch failures total => some (batchMessage (failures.map Prod.fst) total)

/-- The wording of a fault in reports. -/
def describe (f : Fault) : Bytes := f.message?.getD (text "non-standard exception")

/-- The wording of a fault that stops a worker or a measurement. -/
def reason (f : Fault) : Bytes := f.message?.getD (text "unknown exception")

/-- The index that a failed task or batch is known by: that of the first failure, and zero without
any. -/
def index? : Fault → Option Nat
  | task index _ => some index
  | batch failures _ => some ((failures.head?.map Prod.fst).getD 0)
  | _ => none

/-- The fault behind a failed task or batch. -/
def cause? : Fault → Option Fault
  | task _ cause => some cause
  | batch failures _ => failures.head?.map Prod.snd
  | _ => none

end Fault

end Headroom
