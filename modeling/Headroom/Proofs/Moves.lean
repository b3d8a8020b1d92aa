import Headroom.Proofs.Runs

/-!
# What a step can do

`Pool.step` computes the state after an event. Proofs about all runs need the converse view: from
`p.step e = some q`, what `q` looks like and what was known of `p`. It is worked out once, here.

* **`Moves`**: one constructor for each thing that can happen, with the conditions under which it
  does and the state that it leads to. `moves_of_step` is the inversion.
* **`Resizing`**: what the monitor can do about the number of workers; `rescale_resizing` says that
  there is nothing else.
* **`repeat_launch`**: the workers that a start launches, in closed form.
* **`Moves.rank_le`**: the phase goes forward only.

No later proof unfolds `step`, `work`, `start` or `look`.
-/

namespace Headroom.Pool

variable {α : Type}

/-! ## Launching -/

/-- The workers that come out of `count` attempts to launch one, the first of which has number
`first`. -/
def recruits (launches : Nat → Bool) (first count : Nat) : List (Worker α) :=
  ((List.range' first count).filter launches).map (⟨·, .free⟩)

/-- One more attempt of `recruits` to launch a thread. A thread that cannot be launched uses up its
number and adds no worker. -/
theorem recruits_succ (launches : Nat → Bool) (first count : Nat) :
    recruits (α := α) launches first (count + 1)
      = recruits launches first count ++ if launches (first + count) then [⟨first + count, .free⟩]
        else [] := by
  simp only [recruits, List.range'_1_concat, List.filter_append, List.map_append]
  by_cases h : launches (first + count) <;> simp [h]

theorem length_recruits (launches : Nat → Bool) (first count : Nat) :
    (recruits (α := α) launches first count).length =
      (List.range' first count).countP launches := by
  simp [recruits, List.countP_eq_length_filter]

/-- Launching `count` times in a row, as one change of the pool: the loop of `launch` is `recruits`,
with the number of the next worker moved on by `count`. -/
theorem repeat_launch (launches : Nat → Bool) (count : Nat) (p : Pool α) :
    Nat.repeat (launch launches) count p =
      { p with
        nextWorker := p.nextWorker + count
        workers := p.workers ++ recruits launches p.nextWorker count
        live := p.live + (recruits (α := α) launches p.nextWorker count).length } := by
  induction count with
  | zero => simp [Nat.repeat, recruits]
  | succ count ih =>
    rw [Nat.repeat, ih, launch]
    by_cases h : launches (p.nextWorker + count) <;>
      simp [h, recruits_succ, Nat.add_assoc, Int.add_assoc]

/-! ## Resizing -/

/-- What the scaling rule says about a reading, and the run of low readings after it. -/
def verdict (e : Estimate Float) (p : Pool α) : Scaling.Verdict × Int32 :=
  p.config.rules.evaluate p.streak e p.active

/-- The pool with the verdict noted down, before anything is done about it. -/
def noted (e : Estimate Float) (p : Pool α) : Pool α :=
  { p with streak := (p.verdict e).2, trend := (p.verdict e).1.trend }

/-- What the monitor does about an estimate: nothing, keep a worker that was asked to leave, try to
launch one, or ask one to leave. `noted` is the pool with the new trend and the new run of low
readings, which all cases have. -/
inductive Resizing (launches : Nat → Bool) (e : Estimate Float) (p : Pool α) : Pool α → Prop
  | hold (hdelta : (p.verdict e).1.delta = 0) : Resizing launches e p (p.noted e)
  /-- A worker that was asked to leave is kept. -/
  | keep (hup : 0 < (p.verdict e).1.delta) (hroom : p.active < p.config.maxWorkers)
      (hret : 0 < p.retiring) :
      Resizing launches e p { p.noted e with retiring := p.retiring - 1, active := p.active + 1 }
  | hire (hup : 0 < (p.verdict e).1.delta) (hroom : p.active < p.config.maxWorkers)
      (hret : p.retiring ≤ 0) (hlaunch : launches p.nextWorker = true) :
      Resizing launches e p
        { p.noted e with
          nextWorker := p.nextWorker + 1
          workers := p.workers ++ [⟨p.nextWorker, .free⟩]
          live := p.live + 1
          active := p.active + 1 }
  /-- The machine does not launch another worker. -/
  | refused (hup : 0 < (p.verdict e).1.delta) (hroom : p.active < p.config.maxWorkers)
      (hret : p.retiring ≤ 0) (hlaunch : launches p.nextWorker = false) :
      Resizing launches e p { p.noted e with nextWorker := p.nextWorker + 1 }
  | dismiss (hdown : (p.verdict e).1.delta < 0) (hmore : p.config.minWorkers < p.active) :
      Resizing launches e p { p.noted e with retiring := p.retiring + 1, active := p.active - 1 }

/-- A verdict adds a worker only below the limit, and removes one only above the least number. -/
theorem evaluate_delta (r : Scaling.Rules) (streak : Int32) (e : Estimate Float) (active : Int) :
    (0 < (r.evaluate streak e active).1.delta → active < r.maxWorkers) ∧
      ((r.evaluate streak e active).1.delta < 0 → r.minWorkers < active) := by
  unfold Scaling.Rules.evaluate
  split
  · simp [Scaling.Verdict.hold]
  · split
    · split <;> simp_all [Scaling.Verdict.hold]
    · split
      · next h => exact ⟨by simp, fun _ => h.2⟩
      · simp [Scaling.Verdict.hold]

/-- What `rescale` does with an estimate is one of the cases of `Resizing`, so no proof about a step
of the monitor has to open the controller. -/
theorem rescale_resizing (launches : Nat → Bool) (e : Estimate Float) (p : Pool α) :
    Resizing launches e p (p.rescale launches e) := by
  obtain ⟨hup, hdown⟩ := evaluate_delta p.config.rules p.streak e p.active
  show Resizing launches e p
    (if 0 < (p.verdict e).1.delta then (p.noted e).scaleUp launches
      else if (p.verdict e).1.delta < 0 then (p.noted e).scaleDown else p.noted e)
  -- an addition calls one back that was asked to leave before it launches a new one
  rcases Int.lt_trichotomy (p.verdict e).1.delta 0 with hneg | hzero | hpos
  · rw [if_neg (by omega), if_pos hneg]
    exact .dismiss hneg (hdown hneg)
  · rw [if_neg (by omega), if_neg (by omega)]
    exact .hold hzero
  · rw [if_pos hpos, scaleUp]
    by_cases hret : 0 < p.retiring
    · rw [if_pos (show 0 < (p.noted e).retiring from hret)]
      exact .keep hpos (hup hpos) hret
    · rw [if_neg (show ¬0 < (p.noted e).retiring from hret)]
      have hlive : p.live < p.live + 1 := by omega
      cases hlaunch : launches p.nextWorker with
      | true =>
        have hire := Resizing.hire hpos (hup hpos) (by omega) hlaunch
        simpa [launch, noted, hlaunch, hlive] using hire
      | false =>
        have refused := Resizing.refused hpos (hup hpos) (by omega) hlaunch
        simpa [launch, noted, hlaunch] using refused

/-! ## Steps -/

/-- The pool once the monitor has the lock and has noted the time, before it acts on its look. -/
def watched (now : Int) (p : Pool α) : Pool α := { p.markLook now with looking := none }

/-- The pool when a start has launched its workers, and its monitor if it could. -/
def opened (launches : Nat → Bool) (monitor : Bool) (now : Int) (p : Pool α) : Pool α :=
  let crew := recruits launches p.nextWorker p.config.minWorkers.toNat
  { p with
    nextWorker := p.nextWorker + p.config.minWorkers.toNat
    workers := p.workers ++ crew
    live := p.live + crew.length
    active := crew.length
    phase := .running
    lastTick := now
    monitoring := monitor }

/-- All that can happen to a pool, one constructor for each way through the functions that `step`
calls, with the conditions under which it is taken and the pool that it leaves. Every invariant is
proved by cases on it. -/
inductive Moves (p : Pool α) : Event α → Pool α → Prop
  -- callers
  | number : Moves p .number { p with submitted := p.submitted + 1 }
  | enqueue {index : Nat} {body : Result α} (hopen : p.accepting = true) (hroom : p.full = false) :
      Moves p (.enqueue index body) (p.enqueue index body)
  | startLate {launches : Nat → Bool} {monitor : Bool} {now : Int} (hphase : p.phase ≠ .created)
      (hfree : p.draft = none) : Moves p (.start launches monitor now) p
  | startFails {launches : Nat → Bool} {monitor : Bool} {now : Int} (hphase : p.phase = .created)
      (hnone : recruits (α := α) launches p.nextWorker p.config.minWorkers.toNat = [])
      (hfree : p.draft = none) :
      Moves p (.start launches monitor now)
        { p with nextWorker := p.nextWorker + p.config.minWorkers.toNat }
  | start {launches : Nat → Bool} {monitor : Bool} {now : Int} (hphase : p.phase = .created)
      (hsome : recruits (α := α) launches p.nextWorker p.config.minWorkers.toNat ≠ [])
      (hfree : p.draft = none) :
      Moves p (.start launches monitor now)
        ((p.opened launches monitor now).sketch (p.window.estimate now) 0.0 0 now)
  | drain : Moves p (.close true) { p with accepting := false, closing := true }
  | cancel :
      Moves p (.close false)
        { p with
          ledger := (p.settleAll p.queue (.error .cancelled)).ledger
          accepting := false
          closing := true
          queue := []
          queued := 0 }
  | markUnstarted (hphase : p.phase = .created) (hfree : p.draft = none) :
      Moves p .mark
        { p with
          phase := .stopped
          latest := { p.latest with phase := some .stopped, seq := p.latest.seq + 1 } }
  | markRunning (hphase : p.phase = .running) (hfree : p.draft = none) :
      Moves p .mark
        { p with phase := if p.live = 0 then .stopped else .shuttingDown, monitoring := false }
  | markLate (hcreated : p.phase ≠ .created) (hrunning : p.phase ≠ .running)
      (hfree : p.draft = none) :
      Moves p .mark { p with monitoring := false }
  | collect (hlive : p.live = 0) (hdone : p.looking = none) (hfree : p.draft = none) :
      Moves p .collect { p with workers := [] }
  | concludeSame {now : Int} (hstopped : p.latest.phase = some .stopped)
      (hcompleted : p.latest.completed = p.completed) (hfailed : p.latest.failed = p.failed)
      (hempty : p.mailbox.pending = []) (hdone : p.looking = none) (hfree : p.draft = none) :
      Moves p (.conclude now) p.collectSamples
  | conclude {now latency : Int} {rate : Float}
      (hnew : ¬(p.latest.phase = some .stopped ∧ p.latest.completed = p.completed ∧
        p.latest.failed = p.failed ∧ p.mailbox.pending = []))
      (hdone : p.looking = none) (hfree : p.draft = none) :
      Moves p (.conclude now)
        ({ p.collectSamples.markLook now with phase := .stopped, active := 0 }.publish
          (p.collectSamples.window.estimate now) rate latency now)
  -- the monitor
  | survey {now : Int} (hidle : p.looking = none) : Moves p (.survey now) (p.survey now)
  | look {launches : Nat → Bool} {l : Look} {rate : Float} {r : Pool α}
      (hphase : p.phase = .running) (hresize : Resizing launches l.estimate (p.watched l.now) r)
      (hlooking : p.looking = some l) (hfree : p.draft = none) :
      Moves p (.look launches) (r.reap.sketch l.estimate rate l.latency l.now)
  | lookIdle {launches : Nat → Bool} {l : Look} {rate : Float} (hphase : p.phase ≠ .running)
      (hlooking : p.looking = some l) (hfree : p.draft = none) :
      Moves p (.look launches)
        ({ p.watched l.now with trend := .stable }.reap.sketch l.estimate rate l.latency l.now)
  -- whoever holds the lock
  | readQueued {d : Draft} (hdraft : p.draft = some d) (htally : d.tally = .nothing) :
      Moves p .read { p with draft := some { d with tally := .queued p.queued } }
  | readCompleted {d : Draft} {queued : Nat} (hdraft : p.draft = some d)
      (htally : d.tally = .queued queued) :
      Moves p .read { p with draft := some { d with tally := .completed queued p.completed } }
  | readFailed {d : Draft} {queued completed : Nat} (hdraft : p.draft = some d)
      (htally : d.tally = .completed queued completed) :
      Moves p .read
        { p with
          draft := none
          latest :=
            { active := p.active, beta := d.beta, throughput := d.throughput
              avgLatency := d.avgLatency
              queued, completed, failed := p.failed, phase := some p.phase, trend := some p.trend
              seq := p.latest.seq + 1, timestamp := d.now } }
  -- workers
  | retire {id : Nat} (hat : p.stage? id = some .free) (hret : 0 < p.retiring) :
      Moves p (.work id .claim) ({ p with retiring := p.retiring - 1 }.setStage id .leaving)
  | depart {id : Nat} (hat : p.stage? id = some .free) (hret : p.retiring ≤ 0)
      (hqueue : p.queue = []) (hclosing : p.closing = true) :
      Moves p (.work id .claim) (p.setStage id .leaving)
  | take {id : Nat} {job : Job α} {rest : List (Job α)} (hat : p.stage? id = some .free)
      (hret : p.retiring ≤ 0) (hqueue : p.queue = job :: rest) :
      Moves p (.work id .claim) ({ p with queue := rest, queued := rest.length }.setStage id
        (.claimed job))
  | begin {id : Nat} {job : Job α} {cpu : Option Int} {now : Int}
      (hat : p.stage? id = some (.claimed job)) :
      Moves p (.work id (.begin (.ok cpu) now)) (p.setStage id (.running job ⟨now, cpu⟩))
  | beginFails {id : Nat} {job : Job α} {f : Fault} {now : Int}
      (hat : p.stage? id = some (.claimed job)) :
      Moves p (.work id (.begin (.error f) now)) (p.setStage id (.broken job f.reason))
  | run {id : Nat} {job : Job α} {watch : Stopwatch}
      (hat : p.stage? id = some (.running job watch)) :
      Moves p (.work id .run) ((p.settle job.ticket job.outcome).setStage id (.ran job watch))
  | finish {id : Nat} {job : Job α} {watch : Stopwatch} {cpu : Option Int} {now : Int}
      (hat : p.stage? id = some (.ran job watch)) :
      Moves p (.work id (.finish (.ok cpu) now))
        ({ p with mailbox := p.mailbox.push (watch.stop p.active now cpu) }.setStage id
          (.measured job))
  | finishFails {id : Nat} {job : Job α} {watch : Stopwatch} {f : Fault} {now : Int}
      (hat : p.stage? id = some (.ran job watch)) :
      Moves p (.work id (.finish (.error f) now)) (p.setStage id (.broken job f.reason))
  | count {id : Nat} {job : Job α} (hat : p.stage? id = some (.measured job))
      (hgood : job.fails = false) :
      Moves p (.work id .count) ({ p with completed := p.completed + 1 }.setStage id .free)
  | countFailing {id : Nat} {job : Job α} (hat : p.stage? id = some (.measured job))
      (hbad : job.fails = true) :
      Moves p (.work id .count) ({ p with completed := p.completed + 1 }.setStage id (.counted job))
  | countFailed {id : Nat} {job : Job α} (hat : p.stage? id = some (.counted job)) :
      Moves p (.work id .countFailed) ({ p with failed := p.failed + 1 }.setStage id .free)
  | shut {id : Nat} {job : Job α} {what : Bytes} (hat : p.stage? id = some (.broken job what))
      (hfirst : p.failure = none) :
      Moves p (.work id .shut)
        ({ p with
          ledger := (p.settleAll p.queue (.error (.harness what))).ledger
          failure := some what
          accepting := false
          closing := true
          queue := []
          queued := 0 }.setStage id (.closing job what))
  | shutAgain {id : Nat} {job : Job α} {what : Bytes}
      (hat : p.stage? id = some (.broken job what)) (hagain : p.failure.isSome = true) :
      Moves p (.work id .shut) (p.setStage id (.abandoning job what))
  | yield {id : Nat} {job : Job α} {what : Bytes} (hat : p.stage? id = some (.closing job what))
      (hfree : p.draft = none) :
      Moves p (.work id .yield)
        ({ p with
          phase := if p.phase = Phase.running then .shuttingDown else p.phase
          monitoring := false }.setStage id (.abandoning job what))
  | abandon {id : Nat} {job : Job α} {what : Bytes}
      (hat : p.stage? id = some (.abandoning job what)) :
      Moves p (.work id .abandon) ((p.settle job.ticket (.error (.harness what))).setStage id
        .leaving)
  | leave {id : Nat} {now : Int} (hat : p.stage? id = some .leaving)
      (hmore : ¬(p.live - 1 = 0 ∧ p.phase = .shuttingDown)) (hfree : p.draft = none) :
      Moves p (.work id (.leave now)) ({ p with live := p.live - 1 }.setStage id .gone)
  /-- The last worker of a pool that shuts down stops it. -/
  | leaveLast {id : Nat} {now : Int} (hat : p.stage? id = some .leaving) (hlast : p.live - 1 = 0)
      (hphase : p.phase = .shuttingDown) (hfree : p.draft = none) :
      Moves p (.work id (.leave now))
        ({ p with
          live := p.live - 1
          phase := .stopped
          active := 0
          latest := { p.latest with
            phase := some .stopped, active := 0, seq := p.latest.seq + 1, timestamp :=
              now } }.setStage id .gone)

/-- Settling many jobs with `settleAll` changes the ledger and nothing else of the pool. -/
theorem settleAll_eq (jobs : List (Job α)) (r : Result α) (p : Pool α) :
    p.settleAll jobs r =
      { p with
        ledger := jobs.foldl (fun ledger job => ledger.modify job.ticket fun old =>
          old <|> some r) p.ledger } := by
  induction jobs generalizing p with
  | nil => rfl
  | cons job rest ih =>
    simp only [settleAll, List.foldl_cons] at ih ⊢
    rw [ih]
    rfl

/-- A start that finds the pool as it was made opens it (`opened`), unless no worker can be
launched. -/
theorem start_created (launches : Nat → Bool) (monitor : Bool) (now : Int) {p : Pool α}
    (hphase : p.phase = .created) :
    p.start launches monitor now =
      if recruits (α := α) launches p.nextWorker p.config.minWorkers.toNat = [] then
        ({ p with nextWorker := p.nextWorker + p.config.minWorkers.toNat }, some .noWorker)
      else ((p.opened launches monitor now).sketch (p.window.estimate now) 0.0 0 now,
        if monitor then none else some .noMonitor) := by
  have hlive (n : Int) : p.live + n - p.live = n := by omega
  unfold start
  split
  · next h => simp [hphase] at h
  · rw [repeat_launch]
    by_cases hnone : recruits (α := α) launches p.nextWorker p.config.minWorkers.toNat = []
    · simp [hnone]
    · simp [hnone, hlive, opened]
  · next h => exact absurd hphase h

/-- A pool that was started or stopped before ignores `start`, whatever the threads would do. -/
theorem start_late (launches : Nat → Bool) (monitor : Bool) (now : Int) {p : Pool α}
    (hphase : p.phase ≠ .created) : (p.start launches monitor now).1 = p := by
  unfold start
  split
  · rfl
  · next h => exact absurd h hphase
  · rfl

/-- Starting is the owner's business and does not touch what the monitor has in hand. -/
theorem looking_start (launches : Nat → Bool) (monitor : Bool) (now : Int) (p : Pool α) :
    (p.start launches monitor now).1.looking = p.looking := by
  by_cases hphase : p.phase = .created
  · rw [start_created launches monitor now hphase]
    split <;> rfl
  · rw [start_late launches monitor now hphase]

/-- `start` is one of three moves: it comes too late, no worker can be launched, or the pool opens.
Whether the monitor can be launched does not decide between them. -/
theorem moves_of_start (launches : Nat → Bool) (monitor : Bool) (now : Int) {p : Pool α}
    (hfree : p.draft = none) :
    Moves p (.start launches monitor now) (p.start launches monitor now).1 := by
  by_cases hphase : p.phase = .created
  · rw [start_created launches monitor now hphase]
    split
    · next hnone => exact .startFails hphase hnone hfree
    · next hsome => exact .start hphase hsome hfree
  · rw [start_late launches monitor now hphase]
    exact .startLate hphase hfree

/-- The second half of the monitor's work: in a running pool it resizes, in any other it
only looks. -/
theorem moves_of_look (launches : Nat → Bool) {l : Look} {p : Pool α}
    (hlooking : p.looking = some l) (hfree : p.draft = none) :
    Moves p (.look launches) (p.look launches l) := by
  have hlook : p.look launches l =
      (if (p.watched l.now).phase = .running then (p.watched l.now).rescale launches l.estimate
        else { p.watched l.now with trend := .stable }).reap.sketch l.estimate (p.throughput l.now)
          l.latency l.now := rfl
  rw [hlook]
  by_cases hphase : p.phase = .running
  · rw [if_pos (show (p.watched l.now).phase = .running from hphase)]
    exact .look hphase (rescale_resizing launches _ _) hlooking hfree
  · rw [if_neg (show ¬(p.watched l.now).phase = .running from hphase)]
    exact .lookIdle hphase hlooking hfree

/-- One reading of a counter for the snapshot that is being drafted. There are three, for the queue
and the two counters, and each is a move of its own. -/
theorem moves_of_read {d : Draft} {p : Pool α} (hdraft : p.draft = some d) :
    Moves p .read (p.read d) := by
  unfold read
  split
  · next htally => exact .readQueued hdraft htally
  · next htally => exact .readCompleted hdraft htally
  · next htally => exact .readFailed hdraft htally

/-- Closing drains or cancels, as `wait` asks. -/
theorem moves_of_close (wait : Bool) (p : Pool α) : Moves p (.close wait) (p.close wait) := by
  cases wait with
  | true => exact .drain
  | false =>
    have cancels := Moves.cancel (p := p)
    simpa [close, settleAll_eq] using cancels

/-- What `mark` does depends on the phase: a pool that was never started is stopped, one that runs
begins to shut down, and any later one only loses its monitor. -/
theorem moves_of_mark {p : Pool α} (hfree : p.draft = none) : Moves p .mark p.mark := by
  unfold mark
  split
  · next hphase => exact .markUnstarted hphase hfree
  · next hphase => exact .markRunning hphase hfree
  · next hcreated hrunning => exact .markLate hcreated hrunning hfree

/-- Concluding makes a last snapshot, unless the latest one says all that it would say. -/
theorem moves_of_conclude (now : Int) {p : Pool α} (hdone : p.looking = none)
    (hfree : p.draft = none) :
    Moves p (.conclude now) (p.conclude now) := by
  unfold conclude
  simp only [List.isEmpty_iff]
  split
  · next h => exact .concludeSame h.1 h.2.1 h.2.2.1 h.2.2.2 hdone hfree
  · next h => exact .conclude h hdone hfree

/-! ### Workers -/

/-- A free worker that is not idle retires, takes the first job of the queue, or departs. -/
theorem moves_of_claim {id : Nat} {p : Pool α} (hat : p.stage? id = some .free)
    (hbusy : p.quiescent = false) :
    Moves p (.work id .claim) (p.claim id) := by
  unfold claim
  split
  · next hret => exact .retire hat hret
  · next hret =>
    have hret : p.retiring ≤ 0 := by omega
    split
    · next hqueue =>
      have hclosing : p.closing = true := by simpa [quiescent, hqueue, hret] using hbusy
      exact .depart hat hret hqueue hclosing
    · next hqueue => exact .take hat hret hqueue

/-- A worker with a broken job shuts the pool, or finds it shut by another one. -/
theorem moves_of_shut {id : Nat} {job : Job α} {what : Bytes} {p : Pool α}
    (hat : p.stage? id = some (.broken job what)) :
    Moves p (.work id .shut) (p.shut id job what) := by
  unfold shut
  split
  · next hagain => exact .shutAgain hat hagain
  · next hfirst =>
    have shuts := Moves.shut hat (by simpa using hfirst)
    simpa [settleAll_eq] using shuts

/-- A job that was measured is counted. If it failed, its worker has to count it once more as such,
in a step of its own. -/
theorem moves_of_count {id : Nat} {job : Job α} {p : Pool α}
    (hat : p.stage? id = some (.measured job)) :
    Moves p (.work id .count) (p.count id job) := by
  unfold count
  cases hfails : job.fails with
  | false => exact .count hat hfails
  | true => exact .countFailing hat hfails

/-- A leaving worker exits, and the last one of a pool that shuts down stops it. -/
theorem moves_of_leave {id : Nat} {now : Int} {p : Pool α} (hat : p.stage? id = some .leaving)
    (hfree : p.draft = none) : Moves p (.work id (.leave now)) (p.leave id now) := by
  unfold leave
  simp only
  split
  · next h => exact .leaveLast hat h.1 h.2 hfree
  · next h => exact .leave hat h hfree

/-- Each action of a worker begins in the stage that it is meant for. -/
theorem moves_of_work {id : Nat} {action : Action} {p q : Pool α} (h : p.work id action = some q)
    (hfree : (Event.work (α := α) id action).locks = true → p.draft = none) :
    Moves p (.work id action) q := by
  -- the cases are those of `work`: an action, and the stage at which it is possible
  unfold work at h
  split at h
  · next hat =>
    split at h
    · cases h
    · next hbusy => cases h; exact moves_of_claim hat (by simpa using hbusy)
  · next reading now hat =>
    cases h
    cases reading with
    | ok cpu => exact .begin hat
    | error f => exact .beginFails hat
  · next hat => cases h; exact .run hat
  · next reading now hat =>
    cases h
    cases reading with
    | ok cpu => exact .finish hat
    | error f => exact .finishFails hat
  · next hat => cases h; exact moves_of_count hat
  · next hat => cases h; exact .countFailed hat
  · next hat => cases h; exact moves_of_shut hat
  · next hat => cases h; exact .yield hat (hfree rfl)
  · next hat => cases h; exact .abandon hat
  · next hat => cases h; exact moves_of_leave hat (hfree rfl)
  · cases h

/-- An event that takes the lock (`locks`) happens while no snapshot is put together, or without the
lock. -/
theorem step_eq_some_iff {p q : Pool α} {e : Event α} :
    p.step e = some q ↔ (e.locks = true → p.draft = none) ∧ p.happen e = some q := by
  unfold step
  cases e.locks with
  | false => simp
  | true => cases p.draft <;> simp

/-- **Inversion of a step.** Whatever `step` does is one of the `Moves`, so no proof about runs has
to open the definition of `step` again. -/
theorem moves_of_step {p q : Pool α} {e : Event α} (h : p.step e = some q) : Moves p e q := by
  obtain ⟨hfree, h⟩ := step_eq_some_iff.mp h
  cases e with
  | number => cases h; exact .number
  | enqueue index body =>
    simp only [happen] at h
    split at h
    · next hopen =>
      rw [Bool.and_eq_true, Bool.not_eq_true'] at hopen
      cases h
      exact .enqueue hopen.1 hopen.2
    · cases h
  | start launches monitor now => cases h; exact moves_of_start launches monitor now (hfree rfl)
  | survey now =>
    simp only [happen] at h
    split at h
    · cases h
    · next hidle => cases h; exact .survey (by simpa using hidle)
  | look launches =>
    obtain ⟨l, hlooking, rfl⟩ := Option.map_eq_some_iff.mp h
    exact moves_of_look launches hlooking (hfree rfl)
  | read =>
    obtain ⟨d, hdraft, rfl⟩ := Option.map_eq_some_iff.mp h
    exact moves_of_read hdraft
  | close wait => cases h; exact moves_of_close wait p
  | mark => cases h; exact moves_of_mark (hfree rfl)
  | collect =>
    simp only [happen] at h
    split at h
    · next hquiet =>
      rw [Bool.and_eq_true, decide_eq_true_iff, Option.isNone_iff_eq_none] at hquiet
      cases h
      exact .collect hquiet.1 hquiet.2 (hfree rfl)
    · cases h
  | conclude now =>
    simp only [happen] at h
    split at h
    · next hdone => cases h; exact moves_of_conclude now (by simpa using hdone) (hfree rfl)
    · cases h
  | work id action => exact moves_of_work h hfree

/-! ## Steps that need the lock -/

/-- Nobody holds the lock, and the monitor is not in the middle of a look. -/
structure Quiet (p : Pool α) : Prop where
  looking : p.looking = none
  draft : p.draft = none

/-- A worker neither holds the lock for longer than a step nor looks for the monitor. -/
theorem Moves.quiet_of_work {p q : Pool α} {id : Nat} {action : Action}
    (hm : Moves p (.work id action) q) (h : Quiet p) : Quiet q := by
  cases hm <;> exact ⟨h.looking, h.draft⟩

/-- `start` needs the lock and nothing else: a pool with no draft takes it in every phase. -/
theorem step_start {p : Pool α} (hfree : p.draft = none) (launches : Nat → Bool) (monitor : Bool)
    (now : Int) : p.step (.start launches monitor now) = some (p.start launches monitor now).1 :=
  step_eq_some_iff.mpr ⟨fun _ => hfree, rfl⟩

/-- `mark` needs the lock and nothing else. -/
theorem step_mark {p : Pool α} (hfree : p.draft = none) : p.step .mark = some p.mark :=
  step_eq_some_iff.mpr ⟨fun _ => hfree, rfl⟩

/-- `collect` waits for the workers, and for the monitor to have put everything down. -/
theorem step_collect {p : Pool α} (hlive : p.live = 0) (hquiet : Quiet p) :
    p.step .collect = some p.collect :=
  step_eq_some_iff.mpr ⟨fun _ => hquiet.draft, by simp [happen, hlive, hquiet.looking]⟩

/-- `conclude` waits for the monitor to have put everything down. -/
theorem step_conclude {p : Pool α} (hquiet : Quiet p) (now : Int) :
    p.step (.conclude now) = some (p.conclude now) :=
  step_eq_some_iff.mpr ⟨fun _ => hquiet.draft, by simp [happen, hquiet.looking]⟩

/-! ## The phase goes forward -/

/-- How far a phase is from the beginning. No step lowers it. -/
def Phase.rank : Phase → Nat
  | .created => 0
  | .running => 1
  | .shuttingDown => 2
  | .stopped => 3

/-- `stopped` is the last of the four phases. -/
theorem Phase.rank_le (s : Phase) : s.rank ≤ 3 := by
  cases s <;> decide

/-- Nothing but `created` comes first. -/
theorem Phase.eq_created {s : Phase} (h : s.rank = 0) : s = .created := by
  cases s with
  | created => rfl
  | running | shuttingDown | stopped => cases h

/-- Nothing but `stopped` comes last. -/
theorem Phase.eq_stopped {s : Phase} (h : 3 ≤ s.rank) : s = .stopped := by
  cases s with
  | stopped => rfl
  | created | running | shuttingDown => simp [rank] at h

theorem Moves.rank_le {p q : Pool α} {e : Event α} (hm : Moves p e q) :
    p.phase.rank ≤ q.phase.rank := by
  cases hm with
  | start hphase | markUnstarted hphase => rw [hphase]; exact Nat.zero_le _
  | markRunning hphase =>
    rw [hphase]
    dsimp only
    split <;> decide
  | conclude | leaveLast => exact p.phase.rank_le
  | yield =>
    show p.phase.rank ≤ Phase.rank (if p.phase = .running then .shuttingDown else p.phase)
    split
    · next hphase => rw [hphase]; decide
    · exact Nat.le_refl _
  | look _ hresize => cases hresize <;> exact Nat.le_refl _
  | _ => exact Nat.le_refl _

/-- Once a call has moved the phase of a pool that was started, the pool is past running. -/
theorem rank_mark {b : Pool α} (hphase : b.phase ≠ .created) : 2 ≤ b.mark.phase.rank := by
  unfold mark
  split
  · next hcreated => exact absurd hcreated hphase
  · dsimp only
    split <;> decide
  · next hrunning =>
    show 2 ≤ b.phase.rank
    cases hb : b.phase with
    | created => exact absurd hb hphase
    | running => exact absurd hb hrunning
    | shuttingDown | stopped => decide

/-- A run goes through the phases in the order of their `rank`, from whatever pool it starts. -/
theorem rank_of_steps {p q : Pool α} {es : List (Event α)} (h : p.steps es = some q) :
    p.phase.rank ≤ q.phase.rank := by
  induction h using steps_induction with
  | nil => exact Nat.le_refl _
  | snoc es m e q _ hstep ih => exact Nat.le_trans ih (moves_of_step hstep).rank_le

end Headroom.Pool
