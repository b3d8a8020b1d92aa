import Headroom.Pool.Config
import Headroom.Pool.Snapshot
import Headroom.Sampling.Mailbox
import Headroom.Sampling.Stopwatch

/-!
# The state of a pool

A pool has a queue of jobs, workers that take jobs from its front, and a monitor that looks at the
samples of finished jobs and changes the number of workers. Every accepted job has a ticket, counted
from 0, and the ledger holds the result of each ticket once there is one. A result that is there
never changes.

The phase, the wanted number of workers and the latest snapshot are under one lock. It is held for
longer than one step only while a snapshot is put together: its counts are read one after the other,
and workers go on counting meanwhile.
-/

namespace Headroom

namespace Pool

/-- The result of a task. -/
abbrev Result (α : Type) := Except Fault α

/-- A task in the pool: its ticket, the index that a failure is reported under, and what its body
does. -/
structure Job (α : Type) where
  ticket : Nat
  index : Nat
  body : Result α

/-- Where a worker stands. -/
inductive Stage (α : Type)
  /-- In its loop, at the queue. -/
  | free
  /-- Has taken a job from the queue. -/
  | claimed (job : Job α)
  /-- The stopwatch runs; the body may. -/
  | running (job : Job α) (watch : Stopwatch)
  /-- The body is over and its result is known; the sample is not taken yet. -/
  | ran (job : Job α) (watch : Stopwatch)
  /-- The sample is taken; the job is not counted yet. -/
  | measured (job : Job α)
  /-- The job is counted, but not yet among those that failed, which it did. -/
  | counted (job : Job α)
  /-- The counter of computing time failed; the pool does not know yet. -/
  | broken (job : Job α) (what : Bytes)
  /-- Has closed the queue after a failure; the phase is still to be moved. -/
  | closing (job : Job α) (what : Bytes)
  /-- Is about to give up its job. -/
  | abandoning (job : Job α) (what : Bytes)
  /-- Has left its loop. -/
  | leaving
  | gone

structure Worker (α : Type) where
  id : Nat
  stage : Stage α

/-- What the monitor knows before it takes the lock. -/
structure Look where
  estimate : Estimate Float
  latency : Int
  now : Int

/-- The counts of a snapshot that were read so far. -/
inductive Tally
  | nothing
  | queued (queued : Nat)
  | completed (queued completed : Nat)
deriving Repr, DecidableEq

/-- A snapshot that is put together, for which the lock is held. -/
structure Draft where
  beta : Estimate Float
  throughput : Float
  avgLatency : Int
  now : Int
  tally : Tally := .nothing

end Pool

/-- Counts of workers are integers, so that a count that ran below zero would show. -/
structure Pool (α : Type) where
  config : Pool.Config
  -- life, workers and what was published
  phase : Pool.Phase
  trend : Scaling.Trend
  /-- Low readings in a row. -/
  streak : Int32
  workers : List (Pool.Worker α)
  /-- Attempts to launch a worker so far; each takes a fresh number. -/
  nextWorker : Nat
  /-- Workers that have not exited. -/
  live : Int
  /-- The number of workers that the pool wants. -/
  active : Int
  latest : Pool.Snapshot
  /-- The snapshot that whoever holds the lock puts together. -/
  draft : Option Pool.Draft
  /-- A look of the monitor that has not yet taken the lock. -/
  looking : Option Pool.Look
  lastTick : Int
  lastCompleted : Nat
  /-- Whether the monitor still looks. -/
  monitoring : Bool
  -- the queue
  queue : List (Pool.Job α)
  /-- The published length of the queue. -/
  queued : Nat
  accepting : Bool
  /-- Workers exit once the queue is empty. -/
  closing : Bool
  /-- Workers that are asked to leave. -/
  retiring : Int
  /-- Why the first worker that could not measure a job could not. -/
  failure : Option Bytes
  -- tasks
  /-- Indices given out to single submissions. -/
  submitted : Nat
  completed : Nat
  failed : Nat
  /-- Results by ticket; a ticket without one is pending. -/
  ledger : List (Option (Pool.Result α))
  -- samples
  mailbox : Mailbox
  window : Window

namespace Pool

variable {α : Type}

/-- A pool that was just made. -/
def create (config : Config) (now : Int) : Pool α where
  config
  phase := .created
  trend := .stable
  streak := 0
  workers := []
  nextWorker := 0
  live := 0
  active := 0
  latest := { timestamp := now }
  draft := none
  looking := none
  lastTick := 0
  lastCompleted := 0
  monitoring := false
  queue := []
  queued := 0
  accepting := true
  closing := false
  retiring := 0
  failure := none
  submitted := 0
  completed := 0
  failed := 0
  ledger := []
  mailbox := .empty config.mailboxCapacity
  window := .empty config.window

/-- A pool that was just made, if its configuration is usable. The window and the mailbox judge
their own part of it once more. -/
def ofConfig (config : Config) (now : Int) : Except Problem (Pool α) :=
  match config.problem? with
  | some p => .error p
  | none => do
    let window ← Window.ofConfig config.window
    let mailbox ← Mailbox.ofCapacity config.mailboxCapacity
    pure { create config now with window, mailbox }

/-- Jobs accepted so far. -/
def accepted (p : Pool α) : Nat := p.ledger.length

/-- The result of a ticket, once it is settled. -/
def result? (p : Pool α) (ticket : Nat) : Option (Result α) := (p.ledger[ticket]?).join

/-- Gives a ticket its result; a result that is there stays. -/
def settle (ticket : Nat) (r : Result α) (p : Pool α) : Pool α :=
  { p with ledger := p.ledger.modify ticket fun old => old <|> some r }

/-- Gives the same result to several jobs. -/
def settleAll (jobs : List (Job α)) (r : Result α) (p : Pool α) : Pool α :=
  jobs.foldl (fun p job => p.settle job.ticket r) p

/-- Where the worker with this number stands. -/
def stage? (p : Pool α) (id : Nat) : Option (Stage α) :=
  (p.workers.find? (·.id == id)).map Worker.stage

def setStage (id : Nat) (stage : Stage α) (p : Pool α) : Pool α :=
  { p with workers := p.workers.map fun w => if w.id == id then { w with stage } else w }

/-- Whether a bounded queue has no room. -/
def full (p : Pool α) : Bool :=
  0 < p.config.queueCapacity && p.config.queueCapacity ≤ p.queue.length

/-- The fault that a submission to a closed pool meets. -/
def refusal (p : Pool α) : Fault := (p.failure.map Fault.poolFailed).getD .closed

/-- The lock is taken to put a snapshot together. -/
def sketch (beta : Estimate Float) (throughput : Float) (avgLatency now : Int) (p : Pool α) :
    Pool α :=
  { p with draft := some { beta, throughput, avgLatency, now } }

/-- One more count of the draft is read. With the last one the draft becomes the latest snapshot,
and the lock is released. -/
def read (d : Draft) (p : Pool α) : Pool α :=
  match d.tally with
  | .nothing => { p with draft := some { d with tally := .queued p.queued } }
  | .queued queued => { p with draft := some { d with tally := .completed queued p.completed } }
  | .completed queued completed =>
    { p with
      draft := none
      latest :=
        { active := p.active, beta := d.beta, throughput := d.throughput, avgLatency := d.avgLatency
          queued, completed, failed := p.failed, phase := some p.phase, trend := some p.trend
          seq := p.latest.seq + 1, timestamp := d.now } }

/-- Makes the state of the pool its latest snapshot while nobody else counts. -/
def publish (beta : Estimate Float) (throughput : Float) (avgLatency now : Int) (p : Pool α) :
    Pool α :=
  let d : Draft := { beta, throughput, avgLatency, now }
  ((p.read d).read { d with tally := .queued p.queued }).read
    { d with tally := .completed p.queued p.completed }

end Pool

end Headroom
