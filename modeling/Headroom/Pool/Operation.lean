import Headroom.Pool.State

/-!
# What callers and the monitor do

Each function is one step that nothing else can come between: a job enters the queue, the pool
starts, the two parts of a look of the monitor, `survey` and `look`, and the stages of a shutdown,
in order `close`, `mark`, `collect` and `conclude`. A start and a look leave a draft behind, which
`read` completes.
-/

namespace Headroom.Pool

variable {α : Type}

/-- A job enters at the end of the queue. -/
def enqueue (index : Nat) (body : Result α) (p : Pool α) : Pool α :=
  { p with
    queue := p.queue ++ [⟨p.accepted, index, body⟩]
    queued := p.queue.length + 1
    ledger := p.ledger ++ [none] }

/-- An attempt to launch a worker. The number of the attempt becomes that of the worker. Numbers
have no upper bound: a word of 32 bits holds them only for less than `2 ^ 31` attempts. -/
def launch (launches : Nat → Bool) (p : Pool α) : Pool α :=
  let p' := { p with nextWorker := p.nextWorker + 1 }
  if launches p.nextWorker then
    { p' with workers := p.workers ++ [⟨p.nextWorker, .free⟩], live := p.live + 1 }
  else p'

/-- Starts the pool with as many of its least number of workers as can be launched. Without any,
only the numbers of the attempts are used up. If the monitor cannot be launched, the pool runs
without it, and the caller meets a fault. -/
def start (launches : Nat → Bool) (monitor : Bool) (now : Int) (p : Pool α) :
    Pool α × Option Fault :=
  match p.phase with
  | .running => (p, none)
  | .created =>
    let q := Nat.repeat (launch launches) p.config.minWorkers.toNat p
    let launched := q.live - p.live
    if launched = 0 then (q, some .noWorker)
    else
      let q := { q with
        active := launched, phase := .running, lastTick := now, monitoring := monitor }
      (q.sketch (q.window.estimate now) 0.0 0 now, if monitor then none else some .noMonitor)
  | _ => (p, some .alreadyShutDown)

/-! ### The monitor -/

/-- The mean duration of some samples, rounded toward zero. -/
def meanLatency (samples : List Sample) : Int :=
  if samples.isEmpty then 0
  else (samples.foldl (fun (t : Int) s => t + s.wall) 0).tdiv samples.length

/-- All pending samples move from the mailbox to the window. -/
def collectSamples (p : Pool α) : Pool α :=
  let (samples, mailbox) := p.mailbox.drain
  { p with mailbox, window := samples.foldl Window.record p.window }

/-- Tasks per second since the last look. -/
def throughput (now : Int) (p : Pool α) : Float :=
  let seconds := Float.ofInt (now - p.lastTick) / 1000000000.0
  if 0.0 < seconds then Float.ofNat (p.completed - p.lastCompleted) / seconds else 0.0

/-- The look that the next throughput counts from. -/
def markLook (now : Int) (p : Pool α) : Pool α :=
  { p with lastTick := now, lastCompleted := p.completed }

/-- One worker more. A worker that was asked to leave and has not yet is kept instead of a
new one. -/
def scaleUp (launches : Nat → Bool) (p : Pool α) : Pool α :=
  if 0 < p.retiring then { p with retiring := p.retiring - 1, active := p.active + 1 }
  else
    let q := p.launch launches
    if p.live < q.live then { q with active := q.active + 1 } else q

/-- One worker is asked to leave. -/
def scaleDown (p : Pool α) : Pool α := { p with retiring := p.retiring + 1, active := p.active - 1 }

/-- Follows the scaling rule. -/
def rescale (launches : Nat → Bool) (e : Estimate Float) (p : Pool α) : Pool α :=
  let (verdict, streak) := p.config.rules.evaluate p.streak e p.active
  let p := { p with streak, trend := verdict.trend }
  if 0 < verdict.delta then p.scaleUp launches
  else if verdict.delta < 0 then p.scaleDown
  else p

def Stage.isGone : Stage α → Bool
  | .gone => true
  | _ => false

/-- Forgets the workers that have exited. -/
def reap (p : Pool α) : Pool α := { p with workers := p.workers.filter fun w => !w.stage.isGone }

/-- The monitor takes the samples and makes an estimate, for which it needs no lock. -/
def survey (now : Int) (p : Pool α) : Pool α :=
  let latency := meanLatency p.mailbox.pending
  let p := p.collectSamples
  { p with looking := some ⟨p.window.estimate now, latency, now⟩ }

/-- The monitor takes the lock and acts on what it has found. -/
def look (launches : Nat → Bool) (l : Look) (p : Pool α) : Pool α :=
  let rate := p.throughput l.now
  let p : Pool α := { p.markLook l.now with looking := none }
  let p := if p.phase = .running then p.rescale launches l.estimate else { p with trend := .stable }
  p.reap.sketch l.estimate rate l.latency l.now

/-! ### Shutdown -/

/-- Whether a shutdown has to start the pool first, so that what was queued before the start still
runs. -/
def startsFirst (wait : Bool) (p : Pool α) : Bool := p.phase = .created && wait && !p.queue.isEmpty

/-- The queue takes no more jobs. Unless they are to be waited for, the jobs in it are cancelled. -/
def close (wait : Bool) (p : Pool α) : Pool α :=
  let p' := { p with accepting := false, closing := true }
  if wait then p' else { p'.settleAll p.queue (.error .cancelled) with queue := [], queued := 0 }

/-- The phase follows. A pool that never started is stopped at once. -/
def mark (p : Pool α) : Pool α :=
  match p.phase with
  | .created =>
    { p with
      phase := .stopped
      latest := { p.latest with phase := some .stopped, seq := p.latest.seq + 1 } }
  | .running =>
    { p with phase := if p.live = 0 then .stopped else .shuttingDown, monitoring := false }
  | _ => { p with monitoring := false }

/-- The workers, all of which have exited, are forgotten. -/
def collect (p : Pool α) : Pool α := { p with workers := [] }

/-- The last snapshot, which counts every task. It is left out if the latest one does already. -/
def conclude (now : Int) (p : Pool α) : Pool α :=
  let samples := p.mailbox.pending
  let p := p.collectSamples
  if p.latest.phase = some .stopped ∧ p.latest.completed = p.completed ∧ p.latest.failed = p.failed
      ∧ samples.isEmpty then p
  else
    let p := { p with phase := .stopped, active := 0 }
    let latency := if samples.isEmpty then p.latest.avgLatency else meanLatency samples
    let rate := p.throughput now
    let p := p.markLook now
    p.publish (p.window.estimate now) rate latency now

end Headroom.Pool
