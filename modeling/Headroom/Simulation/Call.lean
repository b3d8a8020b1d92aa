import Headroom.Pool.Batch
import Headroom.Simulation.Run
import Headroom.Veto

/-!
# Calls on a simulated pool

What a program can ask of a pool: to start and to shut down, to take a task, and to run a batch.
After each call the pool comes to rest.
-/

namespace Headroom.Simulation

open Pool

variable {α : Type}

/-- A pool at time zero, if its configuration is usable. -/
def create (host : Host) (threshold : Int) (config : Config) (meter : Option Meter) :
    Except Problem (Simulation α) := do
  let pool : Pool α ← Pool.ofConfig config 0
  let (chosen, entries) := match meter with
    | some m => (m, [])
    | none => let (s, entries) := CpuSource.choose host; (.source s, entries)
  pure <| say (entries ++ [(Notice.configured config chosen.name).entry])
    { host, threshold, meter := chosen, pool, clock := 0, nextLook := 0, gates := [], plans := #[]
      lines := [] }

/-- Workers and the monitor start, but do nothing yet. -/
def launchPool (s : Simulation α) : Simulation α × Option Fault :=
  let fault := (s.pool.start s.host.launches true s.clock).2
  let fresh := s.pool.phase = .created
  let s := (s.fire (.start s.host.launches true s.clock)).announce
  (if fresh then { s with nextLook := s.clock + s.pool.config.interval } else s, fault)

def start (s : Simulation α) : Simulation α × Option Fault :=
  let (s, fault) := s.launchPool
  (s.rest, fault)

/-- The stages of a shutdown after the pool was started, if it had to be. -/
def close (wait : Bool) (s : Simulation α) : Simulation α :=
  let fresh := s.pool.phase = .created
  let s := ((s.fire (.close wait)).fire .mark).rest
  if fresh || !wait || s.pool.live != 0 then s
  else (s.fire .collect).fire (.conclude s.clock)

def shutdown (wait : Bool) (s : Simulation α) : Simulation α × Option Fault :=
  let (s, fault) := if s.pool.startsFirst wait then s.launchPool else (s, none)
  match fault with
  | some f => (s.rest, some f)
  | none => (s.close wait, none)

/-! ### Tasks -/

/-- Whether a caller who waits for room need not wait any longer. -/
def admits (s : Simulation α) : Bool := !s.pool.accepting || !s.pool.full

/-- Looks of the monitor up to a moment, until there is room; a look may add a worker, who takes a
job. -/
def looksForRoom (deadline : Option Int) : Nat → Simulation α → Simulation α
  | 0, s => s
  | fuel + 1, s =>
    if s.admits then s
    else match s.due? with
      | some t =>
        if deadline.all (t ≤ ·) then looksForRoom deadline fuel (s.advanceToLook t) else s
      | none => s

/-- Waits for room in the queue. With a limit the clock moves at most that far; without one it moves
while the monitor may still add workers. -/
def awaitRoom (limitMs : Option Int) (s : Simulation α) : Simulation α :=
  let s := s.rest
  match limitMs with
  | some ms =>
    let span := ms * 1000000
    let moment := s.clock + span
    let s := s.looksForRoom (some moment) (s.looksWithin span)
    if s.admits then s else { s with clock := max s.clock moment }
  | none => s.looksForRoom none s.pool.config.maxWorkers.toNat

/-- A job enters the queue, and its ticket is returned. -/
def enqueue (index : Nat) (body : Result α) (plan : Plan) (limitMs : Option Int)
    (s : Simulation α) :
    Simulation α × Except Fault Nat :=
  let s := if s.admits then s else s.awaitRoom limitMs
  if !s.pool.accepting then (s, .error s.pool.refusal)
  else if s.pool.full then (s, .error (.queueFull s.pool.config.queueCapacity (limitMs.getD 0)))
  else
    let ticket := s.pool.accepted
    ({ s.fire (.enqueue index body) with plans := s.plans.push plan }, .ok ticket)

/-- A single task. Also one that is refused uses up an index. -/
def submit (body : Result α) (plan : Plan) (limitMs : Option Int) (s : Simulation α) :
    Simulation α × Except Fault Nat :=
  let index := s.pool.submitted
  let (s, r) := (s.fire .number).enqueue index body plan limitMs
  (s.rest, r)

/-! ### Batches -/

/-- The items of a batch enter the queue from a position on; their tickets are returned. The first
that is refused ends the batch. -/
def enqueueAll (plan : Plan) :
    Nat → List (Result α) → Simulation α → Simulation α × Except Fault (List Nat)
  | _, [], s => (s, .ok [])
  | index, body :: rest, s =>
    match s.enqueue index body plan none with
    | (s, .error f) => (s, .error f)
    | (s, .ok ticket) =>
      let (s, tickets) := enqueueAll plan (index + 1) rest s
      (s, tickets.map (ticket :: ·))

/-- The results of a batch, each a value or a fault. -/
def outcomes (plan : Plan) (bodies : List (Result α)) (s : Simulation α) :
    Simulation α × Except Fault (List (Result α)) :=
  let (s, tickets) := s.enqueueAll plan 0 bodies
  let s := s.rest
  (s, tickets.map fun ts => ts.filterMap s.pool.result?)

/-- The values of a batch, or what its failures come to. -/
def map (plan : Plan) (bodies : List (Result α)) (s : Simulation α) :
    Simulation α × Except Fault (List α) :=
  let (s, results) := s.outcomes plan bodies
  (s, results.bind (gather s.pool.config.failurePolicy))

/-- Whether a batch is worth the pool. -/
def judge (policy : Veto.Policy Float) (items : Nat) (speedup : Option Float) (cliff : Option Int)
    (s : Simulation α) : Simulation α × Veto.Decision Float :=
  let d := Veto.decide policy items (speedup.getD (Veto.heuristicSpeedup items))
    (s.pool.window.estimate s.clock)
    cliff s.pool.config.maxWorkers
  (s.say d.entries, d)

/-- A batch in the pool if it is worth it, and one item after the other otherwise; each item then
takes a `pause` of the clock. -/
def safeMap (policy : Veto.Policy Float) (speedup : Option Float) (cliff : Option Int)
    (plan : Plan) (pause : Int) (bodies : List (Result α)) (s : Simulation α) :
    Simulation α × Veto.Decision Float × Except Fault (List α) :=
  let (s, d) := s.judge policy bodies.length speedup cliff
  if d.approved then
    let (s, values) := s.map plan bodies
    (s, d, values)
  else
    (s.advance (pause * bodies.length), d, sequential s.pool.config.failurePolicy id bodies)

/-- A gate is opened, and stays open. -/
def openGate (gate : Bytes) (s : Simulation α) : Simulation α :=
  { s with gates := gate :: s.gates }.rest

/-- The lines written since they were last taken. -/
def takeLog (s : Simulation α) : Bytes × Simulation α := (s.log, { s with lines := [] })

end Headroom.Simulation
