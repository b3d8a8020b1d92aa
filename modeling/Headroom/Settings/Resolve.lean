import Headroom.Files
import Headroom.Log
import Headroom.Pool.Config
import Headroom.Profile.Config
import Headroom.Settings.Key
import Headroom.Veto

/-!
# Settings

All settings together: each one from the document, else from the environment, else its default.
Settings that would be unusable are refused with the first problem.
-/

namespace Headroom

structure Settings where
  pool : Pool.Config
  profiler : Profile.Config
  veto : Veto.Policy Float
  /-- The name of the document that was read; empty if there was none. -/
  source : Bytes

namespace Settings

def Lookup.window (l : Lookup) : Except Problem Window.Config := do
  let capacity ← l.count .window 200 "monitor window"
  let minSamples ← l.count .minSamples 5 "min_samples"
  pure { capacity, minSamples, maxAgeMs := l.int .maxAge 5000 }

def Lookup.pool (l : Lookup) (hardware : Nat) : Except Problem Pool.Config := do
  let queueCapacity ← l.count .queueCapacity 0 "queue_capacity"
  let mailboxCapacity ← l.count .mailboxCapacity 4096 "mailbox_capacity"
  let failurePolicy ← FailurePolicy.ofName (l.string .failurePolicy (text "raise_on_first"))
  let window ← l.window
  pure {
    minWorkers := l.int .minWorkers 1
    maxWorkers := l.int .maxWorkers (Pool.Config.defaultMaxWorkers hardware)
    blockingThreshold := l.float .blockingThreshold 0.3
    monitorIntervalMs := l.int .monitorInterval 1000
    hysteresisTicks := l.int .hysteresisTicks 3
    queueCapacity, mailboxCapacity, failurePolicy, window }

def Lookup.profiler (l : Lookup) : Except Problem Profile.Config := do
  let reservoir ← l.count .reservoir 4096 "latency_reservoir"
  pure {
    maxThreads := l.int .maxThreads 32
    durationMs := l.int .duration 1000
    cliffDrop := l.float .cliffDrop 0.2
    stopAtCliff := l.flag .stopAtCliff false
    reservoir }

/-- A contention limit that is not positive leaves the rule off. -/
def Lookup.veto (l : Lookup) : Except Problem (Veto.Policy Float) := do
  let minItems ← l.count .minItems 100 "min_items"
  let limit := l.float .contentionBeta 0.0
  pure {
    minItems
    minSpeedup := l.float .minSpeedup 1.1
    contentionBeta := if 0.0 < limit then some limit else none }

/-- Refuses a configuration with a problem. -/
def accept (problem? : Option Problem) : Except Problem Unit :=
  match problem? with
  | some p => .error p
  | none => .ok ()

/-- All settings are looked up before any of them is judged. -/
def resolve (l : Lookup) (hardware : Nat) (source : Bytes) : Except Problem Settings := do
  let pool ← l.pool hardware
  let profiler ← l.profiler
  let veto ← l.veto
  accept pool.problem?
  accept profiler.problem?
  accept veto.problem?
  pure { pool, profiler, veto, source }

/-- Settings from the text of a document. -/
def ofBytes (env : Environment) (hardware : Nat) (source : Bytes) : Except Problem Settings :=
  resolve ⟨.ofBytes source, env⟩ hardware (text "<string>")

/-- A document that was found, with its path. -/
def find? (env : Environment) (fs : Files) (path : Bytes) : Option (Bytes × Document) := do
  let path ← if path.isEmpty then env.configPath? else some path
  let content ← fs.read? path
  some (path, .ofBytes content)

/-- Settings from the file at a path, or at the usual place if the path is empty. -/
def load (env : Environment) (fs : Files) (hardware : Nat) (path : Bytes) :
    Except Problem Settings :=
  match find? env fs path with
  | some (path, document) => resolve ⟨document, env⟩ hardware path
  | none => resolve ⟨.empty, env⟩ hardware []

/-- What loading settings says: the file that was read, or that the asked one could not be. -/
def entries (env : Environment) (fs : Files) (path : Bytes) : List Log.Entry :=
  match find? env fs path with
  | some (path, _) => [⟨.debug, text "config", text "loaded " ++ Bytes.untilNul path⟩]
  | none =>
    if path.isEmpty then []
    else [⟨.warn, text "config",
      text "cannot read " ++ Bytes.untilNul path ++ text ", using environment and defaults"⟩]

end Settings

end Headroom
