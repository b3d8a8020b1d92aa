import Headroom.CpuTime.Source
import Headroom.Pool.Notice

/-!
# A pool on virtual time

One clock, in nanoseconds, that moves only when a caller lets it. Between two moves the pool comes
to rest: workers act one after the other until each of them waits at the queue or at a gate, or has
exited. Tasks take no time of the clock; what a task would take is added to its own readings.
-/

namespace Headroom

/-- What the counter of computing time is told to do. -/
inductive Meter.Mode
  | ok
  /-- There is no reading. -/
  | silent
  | fails
  /-- It fails with a value that carries no message. -/
  | failsForeign
deriving Repr, DecidableEq

/-- The counter of computing time that a pool uses. -/
inductive Meter
  | scripted (mode : Meter.Mode)
  | source (s : CpuSource)
deriving Repr, DecidableEq

namespace Meter

def name : Meter → Bytes
  | scripted _ => text "scripted"
  | source s => s.name

/-- A reading for a thread that has computed for `used` nanoseconds. -/
def read (h : Host) (used : Int) : Meter → Reading
  | scripted .ok => .ok (some used)
  | scripted .silent => .ok none
  | scripted .fails => .error (.raised .runtime (text "cpu counter vanished"))
  | scripted .failsForeign => .error (.raised .foreign [])
  | source s => .ok (s.time? h used)

/-- A scripted counter follows the script, others go on as they do. -/
def follow (mode : Mode) : Meter → Meter
  | scripted _ => scripted mode
  | m => m

end Meter

/-- What a task does besides its result. -/
structure Simulation.Plan where
  /-- The gate that the task waits at. -/
  gate : Option Bytes := none
  /-- How the scripted counter goes on. -/
  mode : Option Meter.Mode := none
  /-- Time that the task takes, and how much of it is computing. -/
  wall : Int := 0
  cpu : Int := 0

structure Simulation (α : Type) where
  host : Host
  /-- Lines above this level are not written. -/
  threshold : Int
  meter : Meter
  pool : Pool α
  clock : Int
  /-- When the monitor looks next, if it does. -/
  nextLook : Int
  /-- The gates that are open. -/
  gates : List Bytes
  /-- Plans by ticket. -/
  plans : Array Simulation.Plan
  /-- What was written so far, the last line first. -/
  lines : List Bytes

namespace Simulation

open Pool

variable {α : Type}

/-- Writes lines. -/
def say (entries : List Log.Entry) (s : Simulation α) : Simulation α :=
  { s with lines := entries.foldl (fun lines e => e.render s.threshold :: lines) s.lines }

/-- All that was written, in order. -/
def log (s : Simulation α) : Bytes := s.lines.reverse.flatten

/-- Lets an event happen, if it can. -/
def fire (e : Event α) (s : Simulation α) : Simulation α :=
  match s.pool.step e with
  | none => s
  | some q => { s with pool := q }.say ((e.notices s.pool q).map Notice.entry)

def plan (s : Simulation α) (job : Job α) : Plan := s.plans[job.ticket]?.getD {}

/-- Whether a job need not wait any longer. -/
def passes (s : Simulation α) (job : Job α) : Bool := (s.plan job).gate.all s.gates.contains

/-- What a worker can do next. -/
def nextAction? (s : Simulation α) (w : Worker α) : Option Action :=
  match w.stage with
  | .free => if s.pool.quiescent then none else some .claim
  | .claimed _ => some (.begin (s.meter.read s.host 0) s.clock)
  | .running job _ => if s.passes job then some .run else none
  | .ran job _ =>
    some (.finish (s.meter.read s.host (s.plan job).cpu) (s.clock + (s.plan job).wall))
  | .measured _ => some .count
  | .counted _ => some .countFailed
  | .broken .. => some .shut
  | .closing .. => if s.pool.draft.isSome then none else some .yield
  | .abandoning .. => some .abandon
  | .leaving => if s.pool.draft.isSome then none else some (.leave s.clock)
  | .gone => none

/-- A body that runs may change how the scripted counter goes on. -/
def obey (w : Worker α) (s : Simulation α) : Simulation α :=
  match w.stage with
  | .running job _ => { s with meter := ((s.plan job).mode.map s.meter.follow).getD s.meter }
  | _ => s

/-- The first worker that can act does so. -/
def act? (s : Simulation α) : Option (Simulation α) :=
  s.pool.workers.findSome? fun w =>
    (s.nextAction? w).map fun action => (s.fire (.work w.id action)).obey w

/-- Workers act, at most so many times. -/
def actFor : Nat → Simulation α → Simulation α
  | 0, s => s
  | fuel + 1, s =>
    match s.act? with
    | none => s
    | some s' => actFor fuel s'

/-- The pool comes to rest. A job takes a worker at most eight steps, and leaving takes it one. -/
def rest (s : Simulation α) : Simulation α :=
  actFor (8 * (s.pool.queue.length + s.pool.workers.length) + 8) s

/-! ### Time -/

/-- The moment at which the monitor looks next. -/
def due? (s : Simulation α) : Option Int := if s.pool.monitoring then some s.nextLook else none

/-- The snapshot that is put together is completed. -/
def announce (s : Simulation α) : Simulation α := ((s.fire .read).fire .read).fire .read

/-- The monitor looks at the pool now. -/
def look (s : Simulation α) : Simulation α :=
  ((s.fire (.survey s.clock)).fire (.look s.host.launches)).announce.rest

/-- The clock moves to the next look of the monitor, which takes place. -/
def advanceToLook (moment : Int) (s : Simulation α) : Simulation α :=
  { s with clock := max s.clock moment, nextLook := moment + s.pool.config.interval }.look

/-- All looks up to a moment take place, at most so many. -/
def looksUntil (moment : Int) : Nat → Simulation α → Simulation α
  | 0, s => s
  | fuel + 1, s =>
    match s.due? with
    | some t => if t ≤ moment then looksUntil moment fuel (s.advanceToLook t) else s
    | none => s

/-- How many looks fit into a span of time. -/
def looksWithin (span : Int) (s : Simulation α) : Nat := (span / s.pool.config.interval).toNat + 1

/-- The clock moves on, and the monitor looks whenever it is due. -/
def advance (span : Int) (s : Simulation α) : Simulation α :=
  let moment := s.clock + span
  let s := s.looksUntil moment (s.looksWithin span)
  { s with clock := max s.clock moment }

end Simulation

end Headroom
