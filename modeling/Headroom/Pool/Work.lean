import Headroom.Pool.State

/-!
# What workers do

A worker takes a job from the front of the queue, starts its stopwatch, runs the body, stops the
stopwatch and puts the sample into the mailbox, and counts the job. If the counter of computing time
fails, the worker closes the queue, moves the phase, gives up its job and leaves, in that order.
Each function is one step that nothing else can come between.
-/

namespace Headroom.Pool

variable {α : Type}

/-- Whether a worker at the queue has nothing to do. -/
def quiescent (p : Pool α) : Bool := p.queue.isEmpty && p.retiring ≤ 0 && !p.closing

/-- A worker at the queue leaves if one is asked to, takes the first job if there is one, and leaves
a closed pool otherwise. -/
def claim (id : Nat) (p : Pool α) : Pool α :=
  if 0 < p.retiring then { p with retiring := p.retiring - 1 }.setStage id .leaving
  else match p.queue with
    | [] => p.setStage id .leaving
    | job :: rest => { p with queue := rest, queued := rest.length }.setStage id (.claimed job)

/-- The stopwatch is started. -/
def begin (id : Nat) (job : Job α) (reading : Reading) (now : Int) (p : Pool α) : Pool α :=
  match reading with
  | .error f => p.setStage id (.broken job f.reason)
  | .ok cpu => p.setStage id (.running job ⟨now, cpu⟩)

/-- What the body of a job leaves behind: its value, or that the task failed. -/
def Job.outcome (job : Job α) : Result α :=
  match job.body with
  | .ok v => .ok v
  | .error f => .error (.task job.index f)

/-- The body runs, and its result is known at once. -/
def run (id : Nat) (job : Job α) (watch : Stopwatch) (p : Pool α) : Pool α :=
  (p.settle job.ticket job.outcome).setStage id (.ran job watch)

def Job.fails (job : Job α) : Bool :=
  match job.body with
  | .ok _ => false
  | .error _ => true

/-- The stopwatch is stopped, and the sample goes to the mailbox. -/
def finish (id : Nat) (job : Job α) (watch : Stopwatch) (reading : Reading) (now : Int)
    (p : Pool α) :
    Pool α :=
  match reading with
  | .error f => p.setStage id (.broken job f.reason)
  | .ok cpu =>
    { p with mailbox := p.mailbox.push (watch.stop p.active now cpu) }.setStage id (.measured job)

/-- The job is counted. -/
def count (id : Nat) (job : Job α) (p : Pool α) : Pool α :=
  { p with completed := p.completed + 1 }.setStage id (if job.fails then .counted job else .free)

/-- The job, which failed, is counted among those that did. -/
def countFailed (id : Nat) (p : Pool α) : Pool α :=
  { p with failed := p.failed + 1 }.setStage id .free

/-- The first worker whose counter failed closes the queue, and the jobs in it are lost. -/
def shut (id : Nat) (job : Job α) (what : Bytes) (p : Pool α) : Pool α :=
  if p.failure.isSome then p.setStage id (.abandoning job what)
  else
    let p := { p with failure := some what, accepting := false, closing := true }
    { p.settleAll p.queue (.error (.harness what)) with queue := [], queued := 0 }.setStage id
      (.closing job what)

/-- After the queue is closed the pool is no longer running. -/
def yield (id : Nat) (job : Job α) (what : Bytes) (p : Pool α) : Pool α :=
  let phase := if p.phase = .running then .shuttingDown else p.phase
  { p with phase, monitoring := false }.setStage id (.abandoning job what)

/-- The job is given up. If its body had run, its result stands. -/
def abandon (id : Nat) (job : Job α) (what : Bytes) (p : Pool α) : Pool α :=
  (p.settle job.ticket (.error (.harness what))).setStage id .leaving

/-- The worker exits. The last one of a pool that is shutting down stops it. -/
def leave (id : Nat) (now : Int) (p : Pool α) : Pool α :=
  let p := { p with live := p.live - 1 }.setStage id .gone
  if p.live = 0 ∧ p.phase = .shuttingDown then
    { p with
      phase := .stopped
      active := 0
      latest := { p.latest with
        phase := some .stopped, active := 0, seq := p.latest.seq + 1, timestamp := now } }
  else p

end Headroom.Pool
