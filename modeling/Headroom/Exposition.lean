import Headroom.Number.Shortest
import Headroom.Pool.Snapshot
import Headroom.Profile.Level

/-!
# Exposition of metrics

Metrics as text for a collector. A family of series has a line of help, a line with its type, and a
line for each series: the name, labels in braces, and a value. In label values the backslash, the
quote and the newline are escaped.
-/

namespace Headroom.Exposition

/-- Counts are written in full, amounts by their shortest digits. -/
inductive Value
  | count (n : Nat)
  | amount (x : Float)

def Value.render : Value → Bytes
  | count n => Bytes.ofNat n
  | amount x => Shortest.render x

structure Series where
  labels : List (Bytes × Bytes)
  value : Value

structure Family where
  name : Bytes
  help : Bytes
  type : Bytes
  series : List Series

def escapeByte (c : UInt8) : Bytes :=
  if c == 92 then [92, 92] else if c == 34 then [92, 34] else if c == 10 then [92, 110] else [c]

/-- A label value as it stands between quotes. -/
def escape (s : Bytes) : Bytes := s.flatMap escapeByte

def label (l : Bytes × Bytes) : Bytes := l.1 ++ text "=\"" ++ escape l.2 ++ [34]

def Series.render (name : Bytes) (s : Series) : Bytes :=
  name ++ [123] ++ Bytes.join [44] (s.labels.map label) ++ [125, 32] ++ s.value.render ++ [10]

def Family.render (f : Family) : Bytes :=
  text "# HELP " ++ f.name ++ [32] ++ f.help ++ [10]
    ++ text "# TYPE " ++ f.name ++ [32] ++ f.type ++ [10]
    ++ f.series.flatMap (Series.render f.name)

def render (fs : List Family) : Bytes := fs.flatMap Family.render

/-- An integer as an unsigned word. -/
def word (n : Int) : Value := .count (n % UInt64.size).toNat

def truth (b : Bool) : Value := .count (if b then 1 else 0)

def seconds (ns : Int) : Value := .amount (Float.ofInt ns / 1000000000.0)

def family (type name help : String) (series : List Series) : Family :=
  ⟨text name, text help, text type, series⟩

def gauge := family "gauge"

def counter := family "counter"

/-! ### Pools -/

open Pool in
/-- The metrics of a pool. -/
def poolFamilies (s : Snapshot) (pool : Bytes) : List Family :=
  let one (v : Value) : List Series := [⟨[(text "pool", pool)], v⟩]
  let each {α : Type} (key : String) (all : List α) (name : α → Bytes) (is : α → Bool) :
    List Series :=
    all.map fun a => ⟨[(text "pool", pool), (text key, name a)], truth (is a)⟩
  [gauge "cliffguard_pool_active_threads" "Workers the pool currently targets"
    (one (word s.active)), gauge "cliffguard_pool_blocking_ratio"
    "Rolling blocking ratio (1 - cpu/wall)" (one (.amount s.beta.beta)),
    gauge "cliffguard_pool_blocking_ratio_samples" "CPU-measured samples behind the ratio"
    (one (.count s.beta.count)), gauge "cliffguard_pool_blocking_ratio_sufficient"
    "1 when enough samples back the ratio"
      (one (truth s.beta.sufficient)),
    gauge "cliffguard_pool_throughput_tasks_per_second"
      "Tasks completed per second over the last tick"
      (one (.amount s.throughput)),
    gauge "cliffguard_pool_task_latency_seconds" "Mean task wall time over the last tick"
      (one (seconds s.avgLatency)),
    gauge "cliffguard_pool_queued_tasks" "Tasks waiting for a worker" (one (.count s.queued)),
    counter "cliffguard_pool_completed_tasks_total" "Tasks finished, including failed ones"
      (one (.count s.completed)),
    counter "cliffguard_pool_failed_tasks_total" "Tasks whose body threw" (one (.count s.failed)),
    gauge "cliffguard_pool_state" "Pool lifecycle state"
      (each "state" Phase.all Phase.name (s.phase == some ·)),
    gauge "cliffguard_pool_scaling" "Scaling decision of the last tick"
      (each "scaling" Scaling.Trend.all Scaling.Trend.name (s.trend == some ·)),
    counter "cliffguard_pool_snapshot_seq" "Snapshot sequence number" (one (.count s.seq))]

/-- The metrics of a pool as text. -/
def pool (s : Pool.Snapshot) (name : Bytes) : Bytes := render (poolFamilies s name)

/-! ### Profiles -/

open Profile in
/-- The metrics of a profiling run. -/
def profileFamilies (a : Analysis Float) (workload : Bytes) : List Family :=
  let one (v : Value) : List Series := [⟨[(text "workload", workload)], v⟩]
  let each (v : Level Float → Value) : List Series :=
    a.levels.map fun l =>
      ⟨[(text "workload", workload), (text "threads", Bytes.ofInt l.threads)], v l⟩
  [gauge "cliffguard_profile_optimal_threads" "Best thread count before any cliff"
    (one (word a.optimal))]
    ++ (a.cliff.toList.map fun threads =>
      gauge "cliffguard_profile_cliff_threads" "First thread count past the saturation cliff"
        (one (word threads)))
    ++ [gauge "cliffguard_profile_cliff_severity" "Relative throughput drop at the cliff"
      (one (.amount a.severity)), gauge "cliffguard_profile_complete"
      "1 when every level was measured" (one (truth a.complete))]
    ++ if a.levels.isEmpty then []
      else
        [gauge "cliffguard_profile_throughput_ops_per_second" "Throughput per thread count"
            (each fun l => .amount l.throughput),
          gauge "cliffguard_profile_latency_p99_seconds" "p99 invocation latency per thread count"
            (each fun l => seconds l.p99),
          gauge "cliffguard_profile_latency_p50_seconds" "p50 invocation latency per thread count"
            (each fun l => seconds l.p50),
          counter "cliffguard_profile_operations_total" "Invocations completed per thread count"
            (each fun l => .count l.operations)]

/-- The metrics of a profiling run as text. -/
def profile (a : Profile.Analysis Float) (workload : Bytes) : Bytes :=
  render (profileFamilies a workload)

end Headroom.Exposition
