import Headroom.Log
import Headroom.Pool.Step

/-!
# What a pool says

The lines that a pool writes are read off a step: from the state before it, the event and the state
after.
-/

namespace Headroom.Pool

inductive Notice
  | configured (config : Config) (source : Bytes)
  | launchFailed
  | started (workers most : Int)
  | cancelled (jobs : Nat)
  | retired (worker : Nat)
  | sampleDropped
  | harnessFailed (what : Bytes) (jobs : Nat)
  | allExited
  | resized (trend : Scaling.Trend) (before after : Int) (beta : Float) (samples : Nat)

namespace Notice

def level : Notice → Log.Level
  | configured .. | retired _ | sampleDropped | allExited => .debug
  | launchFailed => .warn
  | started .. | cancelled _ | resized .. => .info
  | harnessFailed .. => .error

def body : Notice → Bytes
  | configured c source =>
    text "configured workers=" ++ Bytes.ofInt c.minWorkers ++ text ".." ++ Bytes.ofInt c.maxWorkers
      ++ text " threshold=" ++ Fixed.render 2 c.blockingThreshold
      ++ text " interval=" ++ Bytes.ofInt c.monitorIntervalMs ++ text "ms cpu=" ++ source
  | launchFailed => text "could not start worker: Resource temporarily unavailable"
  | started workers most =>
    text "started with " ++ Bytes.ofInt workers ++ text " worker(s), max " ++ Bytes.ofInt most
  | cancelled jobs => text "cancelled " ++ Bytes.ofNat jobs ++ text " queued task(s)"
  | retired worker => text "worker " ++ Bytes.ofNat worker ++ text " retired"
  | sampleDropped => text "sample mailbox full, dropped one sample"
  | harnessFailed what jobs =>
    text "worker harness failed (" ++ what ++ text "); failing " ++ Bytes.ofNat jobs ++
      text " queued task(s)"
  | allExited => text "all workers exited"
  | resized trend before after beta samples =>
    trend.name ++ text ": workers " ++ Bytes.ofInt before ++ text " -> " ++ Bytes.ofInt after
      ++ text " (beta=" ++ Fixed.render 3 beta ++ text " over " ++ Bytes.ofNat samples ++
        text " samples)"

def entry (n : Notice) : Log.Entry := ⟨n.level, text "pool", n.body⟩

end Notice

variable {α : Type}

/-- Attempts to launch a worker that failed between two states. -/
def failedLaunches (p q : Pool α) : Nat := (q.nextWorker - p.nextWorker) - (q.live - p.live).toNat

/-- What a worker's action says. -/
def Action.notices (id : Nat) (p q : Pool α) : Action → List Notice
  | .claim => if 0 < p.retiring then [.retired id] else []
  | .finish (.ok _) _ => if p.mailbox.full then [.sampleDropped] else []
  | .shut =>
    match p.failure, q.failure with
    | none, some what => [.harnessFailed what p.queue.length]
    | _, _ => []
  | .leave _ => if p.phase = .shuttingDown ∧ q.phase = .stopped then [.allExited] else []
  | _ => []

/-- What an event that leads from one state to another says. -/
def Event.notices (p q : Pool α) : Event α → List Notice
  | .start _ monitor _ =>
    List.replicate (failedLaunches p q) .launchFailed
      ++ if p.phase = .created ∧ q.phase = .running ∧ monitor then
          [.started q.active q.config.maxWorkers]
        else []
  | .look _ =>
    List.replicate (failedLaunches p q) .launchFailed
      ++ match p.looking with
        | some l =>
          if p.active ≠ q.active then
            [.resized q.trend p.active q.active l.estimate.beta l.estimate.count]
          else []
        | none => []
  | .close wait => if wait || p.queue.isEmpty then [] else [.cancelled p.queue.length]
  | .work id action => action.notices id p q
  | _ => []

end Headroom.Pool
