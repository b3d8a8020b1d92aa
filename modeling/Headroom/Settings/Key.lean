import Headroom.Environment
import Headroom.Fault
import Headroom.Settings.Document

/-!
# Where a setting comes from

Each setting has a place in the configuration document and a variable. What the document says wins,
even if it cannot be read as a value; the variable is asked only for a key that the document does
not have.
-/

namespace Headroom.Settings

structure Key where
  group : Bytes
  name : Bytes
  var : Bytes
deriving Repr, DecidableEq

namespace Key

def of (group name var : String) : Key :=
  ⟨text group, text name, text "CLIFFGUARD_" ++ text var⟩

def minWorkers := of "pool" "min_workers" "MIN_WORKERS"
def maxWorkers := of "pool" "max_workers" "MAX_WORKERS"
def blockingThreshold := of "pool" "blocking_threshold" "BLOCKING_THRESHOLD"
def monitorInterval := of "pool" "monitor_interval_ms" "MONITOR_INTERVAL_MS"
def hysteresisTicks := of "pool" "hysteresis_ticks" "HYSTERESIS_TICKS"
def queueCapacity := of "pool" "queue_capacity" "QUEUE_CAPACITY"
def mailboxCapacity := of "pool" "mailbox_capacity" "MAILBOX_CAPACITY"
def failurePolicy := of "pool" "failure_policy" "FAILURE_POLICY"
def window := of "monitor" "window" "MONITOR_WINDOW"
def minSamples := of "monitor" "min_samples" "MIN_SAMPLES"
def maxAge := of "monitor" "max_age_ms" "MONITOR_MAX_AGE_MS"
def maxThreads := of "profiler" "max_threads" "PROFILE_MAX_THREADS"
def duration := of "profiler" "duration_ms" "PROFILE_DURATION_MS"
def cliffDrop := of "profiler" "cliff_drop" "CLIFF_DROP"
def stopAtCliff := of "profiler" "stop_at_cliff" "STOP_AT_CLIFF"
def reservoir := of "profiler" "latency_reservoir" "PROFILE_RESERVOIR"
def minItems := of "veto" "min_items" "VETO_MIN_ITEMS"
def minSpeedup := of "veto" "min_speedup" "VETO_MIN_SPEEDUP"
def contentionBeta := of "veto" "contention_beta" "VETO_CONTENTION_BETA"

def all : List Key :=
  [minWorkers, maxWorkers, blockingThreshold, monitorInterval, hysteresisTicks, queueCapacity,
    mailboxCapacity, failurePolicy, window, minSamples, maxAge, maxThreads, duration, cliffDrop,
    stopAtCliff, reservoir, minItems, minSpeedup, contentionBeta]

end Key

/-- The document and the environment that settings are looked up in. -/
structure Lookup where
  document : Document
  environment : Environment

namespace Lookup

def int (l : Lookup) (k : Key) (default : Int) : Int :=
  if l.document.has k.group k.name then l.document.int k.group k.name default
  else l.environment.int k.var default

def float (l : Lookup) (k : Key) (default : Float) : Float :=
  if l.document.has k.group k.name then l.document.float k.group k.name default
  else l.environment.float k.var default

def flag (l : Lookup) (k : Key) (default : Bool) : Bool :=
  if l.document.has k.group k.name then l.document.flag k.group k.name default
  else l.environment.flag k.var default

def string (l : Lookup) (k : Key) (default : Bytes) : Bytes :=
  if l.document.has k.group k.name then l.document.string k.group k.name default
  else (l.environment.lookup? k.var).getD default

/-- A setting that counts something. -/
def count (l : Lookup) (k : Key) (default : Int) (what : String) : Except Problem Nat :=
  let n := l.int k default
  if n < 0 then .error (.negative (text what) n) else .ok n.toNat

end Lookup

end Headroom.Settings
