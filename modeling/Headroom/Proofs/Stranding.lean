import Headroom.Proofs.Lifecycle
import Headroom.Proofs.Settlement

/-!
# Submissions beside the shutdown of a pool that was never started

A shutdown that waits looks in its first step whether jobs are there that need the pool to be
started, and closes the queue in a later one. Other callers may submit in between.

* **`launched_of_returned`**: a call that finds a job launches workers, or it ends with a fault.
* **`settled_iff_queue_eq_nil`**: once the workers are gone, the tickets without a result are those
  in the queue.
* **`unstarted_shutdown_drains_iff`**: what such a call leaves behind, for all ways in which
  submissions fall between its steps.
-/

namespace Headroom.Pool

variable {α : Type}

section

variable {config : Config} {now : Int} {es₀ es : List (Event α)} {p q : Pool α}
  {launches : Nat → Bool} {monitor : Bool}

/-- Without workers, every ticket is settled exactly if no job waits. -/
theorem settled_iff_queue_eq_nil (hrun : (create config now).steps es = some p)
    (hworkers : p.workers = []) :
    (∀ t < p.accepted, (p.result? t).isSome) ↔ p.queue = [] := by
  constructor
  · intro hsettled
    by_contra hqueue
    obtain ⟨job, hjob⟩ := List.exists_mem_of_ne_nil p.queue hqueue
    have htracked := tracked_of_steps hrun
    have hticket := (htracked.mem_queue job.ticket).mp (List.mem_map_of_mem hjob)
    have hsome := hsettled job.ticket hticket.2
    rw [htracked.queued_pending job hjob] at hsome
    cases hsome
  · intro hqueue t ht
    exact settled_of_vacated hrun ((roster_of_steps hrun).live_of_nobody hworkers) hqueue ht

/-- A call that finds jobs in a pool that was never started, and does not end with a fault, has
launched workers. -/
theorem launched_of_returned (hmin : 1 ≤ config.minWorkers)
    (hmax : config.minWorkers ≤ config.maxWorkers) (hrun : (create config now).steps es₀ = some p)
    (hcreated : p.phase = .created) (hqueue : p.queue ≠ [])
    (hcall : Shutdown true launches monitor p es q none) : p.launched launches ≠ 0 := by
  have hfirst : p.startsFirst true = true := startsFirst_eq_true.mpr ⟨rfl, hcreated, hqueue⟩
  have opened {fs : List (Event α)} {c : Pool α} (hopening : Opening true launches monitor p fs c) :
      p.launched launches ≠ 0 := by
    cases hopening with
    | skip hnot => cases hfirst.symm.trans hnot
    | start _ hbefore _ hstart =>
      obtain ⟨hphase, hsame, _⟩ := untouched_of_startsFirst hmin hmax launches hrun hfirst hbefore
      rw [← hsame]
      exact (start_eq_ok hphase hstart).1
  cases hcall with
  | unstarted hopening => exact opened hopening
  | hasty hwait => cases hwait
  | waited _ _ hopening => exact opened hopening

/-- **What a shutdown of a pool that was never started leaves behind.** Whenever submissions fall
between the steps of the call, and whatever else goes on: once the call, a `Shutdown` that waits,
has returned the pool is stopped and has no workers. No job is left in its queue, and every task
that was accepted is settled, exactly if the call found a job in its first look or no task was
accepted after that. Otherwise there are jobs left, each of them pending. -/
theorem unstarted_shutdown_drains_iff (hmin : 1 ≤ config.minWorkers)
    (hmax : config.minWorkers ≤ config.maxWorkers) (hstaged : Staged (create config now) es₀ p)
    (hcreated : p.phase = .created)
    (hcall : Shutdown true launches monitor p es q none) :
    q.phase = .stopped ∧ q.workers = [] ∧
      ((q.queue = [] ∧ ∀ t < q.accepted, (q.result? t).isSome) ↔ p.queue ≠ [] ∨
        submissions es = []) ∧
      (p.queue = [] → submissions es ≠ [] → q.queue ≠ [] ∧ ∀ job ∈ q.queue,
        q.result? job.ticket = none) := by
  have hrun := hstaged.steps
  have hend := steps_trans hrun hcall.steps
  have hover := over_of_returned hmin hmax (hcall.returned hrun)
  have hsettled := settled_iff_queue_eq_nil hend hover.workers
  -- of the two ways to strand a job, the one in which no worker can be launched ends with a fault
  have hstrands : Strands true launches p es ↔ p.queue = [] ∧ submissions es ≠ [] := by
    constructor
    · rintro ⟨_, ⟨_, ⟨hqueue, hzero⟩ | hlate⟩ | ⟨hstopped, _⟩⟩
      · exact absurd hzero (launched_of_returned hmin hmax hrun hcreated hqueue hcall)
      · exact hlate
      · cases hcreated.symm.trans hstopped
    · exact fun hlate => ⟨rfl, .inl ⟨hcreated, .inr hlate⟩⟩
  have hqueue : q.queue ≠ [] ↔ p.queue = [] ∧ submissions es ≠ [] := by
    rw [← hstrands]
    cases hcall.ending hmin hmax hstaged with
    | closed hnot _ _ _ hempty =>
      exact ⟨fun hne => absurd (hempty rfl) hne, fun hlost => absurd hlost hnot⟩
    | stranded hlost _ hne => exact ⟨fun _ => hlost, fun _ => hne⟩
    | opened _ _ _ _ houtcome => cases houtcome
  refine ⟨hover.phase, hover.workers, ?_, fun hempty hlate => ⟨hqueue.mpr ⟨hempty, hlate⟩, ?_⟩⟩
  · rw [hsettled, and_self, ← not_iff_not, ← ne_eq, hqueue, not_or, not_not]
  · exact (tracked_of_steps hend).queued_pending

end

/-- The call looks, a task is accepted, and the queue is closed: the task is left in a pool that is
stopped. -/
example : ∃ es q, Shutdown true (fun _ => true) true (create (α := Nat) {} 0) es q none ∧
    q.phase = .stopped ∧ q.accepted = 1 ∧ q.queue.length = 1 ∧ q.result? 0 = none :=
  have hlate : Meanwhile (create (α := Nat) {} 0) [.enqueue 0 (.ok 7)]
    ((create {} 0).enqueue 0 (.ok 7)) :=
    ⟨rfl, by simp [Event.Aside]⟩
  ⟨_, _, .unstarted (.skip rfl hlate) (.refl _) rfl rfl, rfl, rfl, rfl, rfl⟩

end Headroom.Pool
