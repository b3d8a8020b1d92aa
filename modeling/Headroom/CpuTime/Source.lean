import Headroom.CpuTime.Ticks
import Headroom.Host
import Headroom.Log

/-!
# Sources of computing time

The computing time of a thread comes from its own clock, from the process file system, or from
nowhere. The source is chosen once: the one that the environment asks for, else the best one that
works.
-/

namespace Headroom

inductive CpuSource
  | threadClock
  | processFiles
  /-- Only the wall clock: computing time is never measured. -/
  | wallOnly
deriving Repr, DecidableEq

namespace CpuSource

def name : CpuSource → Bytes
  | threadClock => text "thread-clock"
  | processFiles => text "procfs"
  | wallOnly => text "wall-only"

def measures : CpuSource → Bool
  | wallOnly => false
  | _ => true

/-- Clock ticks in a second. -/
def tickRate : UInt64 := 100

/-- The computing time that the process file system gives for the thread, with so many ticks in a
second. -/
def fileTime? (rate : UInt64) (h : Host) : Option Int := do
  let stat ← h.environment.contents? h.files (text "/proc/thread-self/stat")
  let ticks ← Ticks.ofStat? stat
  some (Ticks.nanoseconds rate ticks.total)

/-- A reading for a thread that has computed for `used` nanoseconds. -/
def time? (h : Host) (used : Int) : CpuSource → Option Int
  | threadClock => if h.threadClock then some used else none
  | processFiles => fileTime? tickRate h
  | wallOnly => none

/-- Whether a source can be used at all. -/
def works (h : Host) : CpuSource → Bool
  | threadClock => h.threadClock
  | processFiles => (fileTime? tickRate h).isSome
  | wallOnly => true

def entry (level : Log.Level) (body : Bytes) : Log.Entry := ⟨level, text "CpuTimeSource", body⟩

/-- The best source that works, and what is to be said about it. -/
def detect (h : Host) : CpuSource × List Log.Entry :=
  if works h threadClock then (threadClock, [])
  else if works h processFiles then
    (processFiles, [entry .info (text "thread CPU clock unavailable, using procfs")])
  else
    (wallOnly,
      [entry .warn
        (text "no per-thread CPU counter; blocking ratio will report insufficient data")])

/-- The source to use, and what is to be said about the choice. -/
def choose (h : Host) : CpuSource × List Log.Entry :=
  match h.environment.lookup? (text "CLIFFGUARD_CPU_SOURCE") with
  | none => detect h
  | some wish =>
    if wish == text "wall" then (wallOnly, [])
    else if wish == text "procfs" then
      if works h processFiles then (processFiles, [])
      else (wallOnly,
        [entry .warn (text "procfs source unavailable, falling back to wall clock only")])
    else if wish == text "thread" then detect h
    else
      let (source, entries) := detect h
      (source, entry .warn (text "unknown CLIFFGUARD_CPU_SOURCE '" ++ wish ++
        text "', auto-detecting") :: entries)

end CpuSource

end Headroom
