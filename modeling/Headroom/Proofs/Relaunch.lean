import Headroom.Proofs.Progress
import Headroom.Proofs.Stranding

/-!
# Starts that fail

A start that launches no worker uses up the numbers of its attempts. Nothing else of the pool
changes, and the numbers of workers only tell them apart.

* **`steps_renumber`**: a pool whose workers have higher numbers goes through the same states, with
  the higher numbers. Hence the pool after a failed start and the one before it can do the same
  (`Mirrors`).
* **`Working.completes`**: a pool that runs does the jobs in its queue, unless it is shut down or a
  reading fails.
* **`failed_start_changes_nothing`**: both together, and what a start does that launches some
  workers.
-/

namespace Headroom.Pool

variable {α : Type}

/-! ## Numbers of workers -/

def Worker.renumber (n : Nat) (w : Worker α) : Worker α := { w with id := w.id + n }

/-- The pool after `n` more attempts to launch a worker: all workers have numbers that are higher by
`n`. Every function of the pool commutes with it, which the lemmas below say one by one. -/
def renumber (n : Nat) (p : Pool α) : Pool α :=
  { p with nextWorker := p.nextWorker + n, workers := p.workers.map (Worker.renumber n) }

/-- What happens in a pool, and the same in the pool after `n` more attempts: the worker has the
higher number, and an attempt with the higher number ends in the same way. -/
inductive Event.Counterpart (n : Nat) : Event α → Event α → Prop
  | number : Counterpart n .number .number
  | enqueue (index : Nat) (body : Result α) :
      Counterpart n (.enqueue index body) (.enqueue index body)
  | start (launches : Nat → Bool) (monitor : Bool) (now : Int) :
      Counterpart n (.start (fun i => launches (i + n)) monitor now) (.start launches monitor now)
  | survey (now : Int) : Counterpart n (.survey now) (.survey now)
  | look (launches : Nat → Bool) : Counterpart n (.look fun i => launches (i + n)) (.look launches)
  | read : Counterpart n .read .read
  | close (wait : Bool) : Counterpart n (.close wait) (.close wait)
  | mark : Counterpart n .mark .mark
  | collect : Counterpart n .collect .collect
  | conclude (now : Int) : Counterpart n (.conclude now) (.conclude now)
  | work (id : Nat) (action : Action) : Counterpart n (.work id action) (.work (id + n) action)

section

variable (n : Nat) (p : Pool α)

/-- A worker is found under its new number, in the stage it has. -/
theorem stage?_renumber (id : Nat) : (p.renumber n).stage? (id + n) = p.stage? id := by
  have hid (w : Worker α) : ((w.renumber n).id == id + n) = (w.id == id) := by
    simp [Worker.renumber, Bool.beq_eq_decide_eq]
  simp only [stage?, renumber, List.find?_map, Function.comp_def, hid, Option.map_map]
  rfl

/-- No worker has a number below those of the additional attempts. -/
theorem stage?_renumber_of_lt {id : Nat} (h : id < n) : (p.renumber n).stage? id = none := by
  have hnobody : (p.renumber n).workers.find? (·.id == id) = none := by
    refine List.find?_eq_none.mpr fun w hw => ?_
    obtain ⟨v, -, rfl⟩ := List.mem_map.mp hw
    simp only [Worker.renumber, beq_iff_eq]
    omega
  rw [stage?, hnobody, Option.map_none]

theorem setStage_renumber (id : Nat) (s : Stage α) :
    (p.renumber n).setStage (id + n) s = (p.setStage id s).renumber n := by
  have hworker (w : Worker α) :
      (if (w.renumber n).id == id + n then { w.renumber n with stage := s } else w.renumber n) =
      (if w.id == id then { w with stage := s } else w : Worker α).renumber n := by
    by_cases h : w.id = id <;> simp [Worker.renumber, h]
  simp only [setStage, renumber, List.map_map, Function.comp_def, hworker]

theorem reap_renumber : (p.renumber n).reap = p.reap.renumber n := by
  simp only [reap, renumber, List.filter_map]
  rfl

/-- The outcome of an attempt is looked up under the number of the attempt, so `launches` has to be
shifted along. -/
theorem launch_renumber (launches : Nat → Bool) :
    (p.renumber n).launch launches = (p.launch fun i => launches (i + n)).renumber n := by
  cases h : launches (p.nextWorker + n) with
  | false => simp [launch, h, renumber, Nat.add_right_comm]
  | true => simp [launch, h, renumber, Worker.renumber, Nat.add_right_comm]

/-! ### Callers and the monitor -/

theorem repeat_launch_renumber (launches : Nat → Bool) (count : Nat) :
    Nat.repeat (launch launches) count (p.renumber n) =
      (Nat.repeat (launch fun i => launches (i + n)) count p).renumber n := by
  induction count with
  | zero => rfl
  | succ count ih => rw [Nat.repeat, ih, launch_renumber, Nat.repeat]

/-- Starting ends in the same way, fault included, if the attempts do. -/
theorem start_renumber (launches : Nat → Bool) (monitor : Bool) (now : Int) :
    (p.renumber n).start launches monitor now =
      ((p.start (fun i => launches (i + n)) monitor now).1.renumber n,
        (p.start (fun i => launches (i + n)) monitor now).2) := by
  have hphase : (p.renumber n).phase = p.phase := rfl
  have hconfig : (p.renumber n).config = p.config := rfl
  have hlive : ∀ q : Pool α, (q.renumber n).live = q.live := fun _ => rfl
  unfold start
  rw [hphase, hconfig, repeat_launch_renumber]
  cases p.phase with
  | created =>
    dsimp only
    rw [hlive, hlive]
    split <;> rfl
  | running | shuttingDown | stopped => rfl

theorem scaleUp_renumber (launches : Nat → Bool) :
    (p.renumber n).scaleUp launches = (p.scaleUp fun i => launches (i + n)).renumber n := by
  have hlive : ∀ q : Pool α, (q.renumber n).live = q.live := fun _ => rfl
  simp only [scaleUp, launch_renumber, hlive, apply_ite (renumber n)]
  rfl

theorem rescale_renumber (launches : Nat → Bool) (e : Estimate Float) :
    (p.renumber n).rescale launches e = (p.rescale (fun i => launches (i + n)) e).renumber n := by
  have hup := scaleUp_renumber n (p.noted e) launches
  simp only [rescale, apply_ite (renumber n)]
  exact if_congr Iff.rfl hup rfl

theorem look_renumber (launches : Nat → Bool) (l : Look) :
    (p.renumber n).look launches l = (p.look (fun i => launches (i + n)) l).renumber n := by
  have hresize := rescale_renumber n (p.watched l.now) launches l.estimate
  have hlook :
      (if p.phase = .running then ((p.watched l.now).renumber n).rescale launches l.estimate
        else ({ p.watched l.now with trend := .stable } : Pool α).renumber n).reap =
      (if p.phase = .running then (p.watched l.now).rescale (fun i => launches (i + n)) l.estimate
        else { p.watched l.now with trend := .stable }).reap.renumber n := by
    rw [← reap_renumber, apply_ite (renumber n), hresize]
  exact congrArg (fun r : Pool α => r.sketch l.estimate (p.throughput l.now) l.latency l.now) hlook

theorem read_renumber (d : Draft) : (p.renumber n).read d = (p.read d).renumber n := by
  cases htally : d.tally <;> simp only [read, renumber, htally]

theorem close_renumber (wait : Bool) : (p.renumber n).close wait = (p.close wait).renumber n := by
  cases wait with
  | true => rfl
  | false => simp only [close, settleAll_eq]; rfl

theorem mark_renumber : (p.renumber n).mark = p.mark.renumber n := by
  cases hphase : p.phase <;> simp only [mark, renumber, hphase]

theorem conclude_renumber (now : Int) :
    (p.renumber n).conclude now = (p.conclude now).renumber n := by
  simp only [conclude, apply_ite (renumber n)]
  rfl

/-! ### Workers -/

theorem claim_renumber (id : Nat) : (p.renumber n).claim (id + n) = (p.claim id).renumber n := by
  have hsame : (p.renumber n).queue = p.queue := rfl
  have hset (q : Pool α) (s : Stage α) := setStage_renumber n q id s
  simp only [claim, hsame, apply_ite (renumber n), ← hset]
  cases p.queue with
  | nil => exact if_congr Iff.rfl rfl (hset p .leaving)
  | cons job rest =>
    exact if_congr Iff.rfl rfl (hset { p with queue := rest, queued := rest.length } (.claimed job))

theorem shut_renumber (id : Nat) (job : Job α) (what : Bytes) :
    (p.renumber n).shut (id + n) job what = (p.shut id job what).renumber n := by
  simp only [shut, settleAll_eq, apply_ite (renumber n), ← setStage_renumber]
  rfl

theorem finish_renumber (id : Nat) (job : Job α) (watch : Stopwatch) (reading : Reading)
    (now : Int) :
    (p.renumber n).finish (id + n) job watch reading now =
      (p.finish id job watch reading now).renumber n := by
  cases reading with
  | error f => exact setStage_renumber n p id (.broken job f.reason)
  | ok cpu =>
    exact setStage_renumber n { p with mailbox := p.mailbox.push (watch.stop p.active now cpu) } id
      (.measured job)

theorem count_renumber (id : Nat) (job : Job α) :
    (p.renumber n).count (id + n) job = (p.count id job).renumber n :=
  setStage_renumber n { p with completed := p.completed + 1 } id (if job.fails then .counted job
    else .free)

theorem countFailed_renumber (id : Nat) :
    (p.renumber n).countFailed (id + n) = (p.countFailed id).renumber n :=
  setStage_renumber n { p with failed := p.failed + 1 } id .free

theorem yield_renumber (id : Nat) (job : Job α) (what : Bytes) :
    (p.renumber n).yield (id + n) job what = (p.yield id job what).renumber n :=
  setStage_renumber n
    { p with phase := if p.phase = .running then .shuttingDown else p.phase, monitoring := false }
    id (.abandoning job what)

theorem leave_renumber (id : Nat) (now : Int) :
    (p.renumber n).leave (id + n) now = (p.leave id now).renumber n := by
  have hgone := setStage_renumber n { p with live := p.live - 1 } id .gone
  simp only [leave, apply_ite (renumber n)]
  exact if_congr Iff.rfl
    (congrArg (fun q : Pool α => { q with
      phase := .stopped
      active := 0
      latest :=
        { q.latest with
          phase := some .stopped, active := 0, seq := q.latest.seq + 1, timestamp := now } })
      hgone) hgone

theorem work_renumber (id : Nat) (action : Action) :
    (p.renumber n).work (id + n) action = (p.work id action).map (renumber n) := by
  have hset (q : Pool α) (s : Stage α) := setStage_renumber n q id s
  unfold work
  rw [stage?_renumber]
  split
  · rw [apply_ite (Option.map (renumber n)), claim_renumber]; rfl
  · next reading _ _ => cases reading <;> exact congrArg some (hset p _)
  · exact congrArg some (hset (p.settle _ _) _)
  · rw [finish_renumber]; rfl
  · rw [count_renumber]; rfl
  · rw [countFailed_renumber]; rfl
  · rw [shut_renumber]; rfl
  · rw [yield_renumber]; rfl
  · exact congrArg some (hset (p.settle _ _) _)
  · rw [leave_renumber]; rfl
  · rfl

/-! ### Runs -/

variable {n p}

/-- An event and its `Counterpart` lead to the same pool, up to `renumber`; or neither of them can
happen. -/
theorem happen_renumber {e e' : Event α} (h : e.Counterpart n e') :
    (p.renumber n).happen e' = (p.happen e).map (renumber n) := by
  cases h with
  | number => rfl
  | enqueue | survey | collect =>
    simp only [happen, apply_ite (Option.map (renumber n))]
    rfl
  | start => simp [happen, start_renumber]
  | look =>
    simp only [happen, look_renumber, Option.map_map]
    rfl
  | read =>
    simp only [happen, read_renumber, Option.map_map]
    rfl
  | close => simp [happen, close_renumber]
  | mark => simp [happen, mark_renumber]
  | conclude =>
    simp only [happen, conclude_renumber, apply_ite (Option.map (renumber n))]
    rfl
  | work id action => exact work_renumber n p id action

theorem step_renumber {e e' : Event α} (h : e.Counterpart n e') :
    (p.renumber n).step e' = (p.step e).map (renumber n) := by
  have hlocks : e'.locks = e.locks := by
    cases h with
    | work id action => cases action <;> rfl
    | _ => rfl
  rw [step, step, hlocks, happen_renumber h, apply_ite (Option.map (renumber n))]
  rfl

/-- Whatever can happen after the additional attempts could have happened without them: an event
that names a worker names one that is there, hence not one of the numbers that were used up. -/
theorem counterpart_of_step {e' : Event α} {r : Pool α} (h : (p.renumber n).step e' = some r) :
    ∃ e, Event.Counterpart n e e' := by
  cases e' with
  | number => exact ⟨_, .number⟩
  | enqueue index body => exact ⟨_, .enqueue index body⟩
  | start launches monitor now => exact ⟨_, .start launches monitor now⟩
  | survey now => exact ⟨_, .survey now⟩
  | look launches => exact ⟨_, .look launches⟩
  | read => exact ⟨_, .read⟩
  | close wait => exact ⟨_, .close wait⟩
  | mark => exact ⟨_, .mark⟩
  | collect => exact ⟨_, .collect⟩
  | conclude now => exact ⟨_, .conclude now⟩
  | work id action =>
    rcases Nat.lt_or_ge id n with hlt | hge
    · have h := (step_eq_some_iff.mp h).2
      simp only [happen, work, stage?_renumber_of_lt n p hlt] at h
      cases h
    · obtain ⟨i, rfl⟩ := Nat.exists_eq_add_of_le' hge
      exact ⟨_, .work i action⟩

/-- Every event has a counterpart. Attempts below `n`, which it says nothing about, may end in any
way. -/
theorem exists_counterpart (n : Nat) (e : Event α) : ∃ e', Event.Counterpart n e e' := by
  have hback (launches : Nat → Bool) :
      (fun i => (fun j => launches (j - n)) (i + n)) = launches := by
    funext i
    simp only [Nat.add_sub_cancel]
  cases e with
  | number => exact ⟨_, .number⟩
  | enqueue index body => exact ⟨_, .enqueue index body⟩
  | start launches monitor now =>
    have h := Event.Counterpart.start (α := α) (n := n) (fun j => launches (j - n)) monitor now
    exact ⟨_, hback launches ▸ h⟩
  | survey now => exact ⟨_, .survey now⟩
  | look launches =>
    have h := Event.Counterpart.look (α := α) (n := n) (fun j => launches (j - n))
    exact ⟨_, hback launches ▸ h⟩
  | read => exact ⟨_, .read⟩
  | close wait => exact ⟨_, .close wait⟩
  | mark => exact ⟨_, .mark⟩
  | collect => exact ⟨_, .collect⟩
  | conclude now => exact ⟨_, .conclude now⟩
  | work id action => exact ⟨_, .work id action⟩

theorem exists_counterparts (n : Nat) (es : List (Event α)) :
    ∃ es', List.Forall₂ (Event.Counterpart n) es es' := by
  induction es with
  | nil => exact ⟨[], .nil⟩
  | cons e es ih =>
    obtain ⟨e', he⟩ := exists_counterpart n e
    obtain ⟨es', hes⟩ := ih
    exact ⟨e' :: es', .cons he hes⟩

/-- **The numbers of workers make no difference to what happens.** A run and the run over the
counterparts of its events end in the same pool, up to `renumber`. -/
theorem steps_renumber {es es' : List (Event α)} (h : List.Forall₂ (Event.Counterpart n) es es') :
    (p.renumber n).steps es' = (p.steps es).map (renumber n) := by
  induction h generalizing p with
  | nil => rfl
  | cons he _ ih =>
    rw [steps, steps, step_renumber he]
    cases p.step _ with
    | none => rfl
    | some q => exact ih

/-- A run of the renumbered pool consists of counterparts, by `counterpart_of_step` for each of its
events. -/
theorem counterparts_of_steps {es' : List (Event α)} {r : Pool α}
    (h : (p.renumber n).steps es' = some r) :
    ∃ es, List.Forall₂ (Event.Counterpart n) es es' := by
  induction es' generalizing p with
  | nil => exact ⟨[], .nil⟩
  | cons e' es' ih =>
    obtain ⟨m, hm, hrest⟩ := Option.bind_eq_some_iff.mp h
    obtain ⟨e, he⟩ := counterpart_of_step hm
    rw [step_renumber he] at hm
    obtain ⟨q, -, rfl⟩ := Option.map_eq_some_iff.mp hm
    obtain ⟨es, hes⟩ := ih hrest
    exact ⟨e :: es, .cons he hes⟩

end

/-- What can happen in the pool `p` can happen in `q`, and the other way round, and each time
the two are in the same state after it, but for the numbers of workers, which are higher by `n`
in `q`. -/
structure Mirrors (n : Nat) (p q : Pool α) : Prop where
  there : ∀ es r, p.steps es = some r →
    ∃ es', List.Forall₂ (Event.Counterpart n) es es' ∧ q.steps es' = some (r.renumber n)
  back : ∀ es' r', q.steps es' = some r' →
    ∃ es r, List.Forall₂ (Event.Counterpart n) es es' ∧ p.steps es = some r ∧ r' = r.renumber n

theorem mirrors_renumber (n : Nat) (p : Pool α) : Mirrors n p (p.renumber n) := by
  refine ⟨fun es r hr => ?_, fun es' r' hr' => ?_⟩
  · obtain ⟨es', hes⟩ := exists_counterparts n es
    exact ⟨es', hes, by rw [steps_renumber hes, hr, Option.map_some]⟩
  · obtain ⟨es, hes⟩ := counterparts_of_steps hr'
    rw [steps_renumber hes] at hr'
    obtain ⟨r, hr, rfl⟩ := Option.map_eq_some_iff.mp hr'
    exact ⟨es, r, hes, hr, rfl⟩

/-! ## Work after a start -/

/-- The pool runs, and no reading has failed so far. As long as this is so, no job gets any other
result than its own. -/
structure Working (p : Pool α) : Prop where
  running : p.phase = .running
  unharmed : ∀ id, p.view Stage.doomed? id = none

namespace Working

variable {p q : Pool α}

/-- A step that is neither a shutdown nor a reading that fails keeps the pool `Working`. -/
theorem move (h : Working p) (hroster : Roster p) {e : Event α} (he : e.Sound) (hm : Moves p e q) :
    Working q := by
  have unharmed {id : Nat} {t : Stage α} (hat : p.stage? id = some t) : t.doomed? = none :=
    (view_of_stage hat).symm.trans (h.unharmed id)
  refine ⟨?_, fun id => Option.eq_none_iff_forall_ne_some.mpr ?_⟩
  · cases hm with
    | start => rfl
    | markUnstarted | markRunning | markLate | concludeSame | conclude | collect => exact he.elim
    | yield hat => cases unharmed hat
    | leaveLast _ _ hlate => cases h.running.symm.trans hlate
    | look _ hresize => cases hresize <;> exact h.running
    | _ => exact h.running
  · rintro ⟨job, what⟩ hdoomed
    rcases hm.doomed hroster hdoomed with hbefore | ⟨f, now, -, rfl | rfl⟩
    · cases hbefore.symm.trans (h.unharmed id)
    · exact he
    · exact he

section

variable {config : Config} {now : Int} {es fs : List (Event α)}
  (hrun : (create config now).steps es = some p)

include hrun

theorem soundly (h : Working p) (hmore : Soundly p fs q) : Working q := by
  obtain ⟨hmore, hsound⟩ := hmore
  induction hmore using steps_induction with
  | nil => exact h
  | snoc fs m e q hm hstep ih =>
    have hbefore := ih fun e he => hsound e (List.mem_append_left _ he)
    exact hbefore.move (roster_of_steps (steps_trans hrun hm)) (hsound e (by simp))
      (moves_of_step hstep)

/-- A job that waits can get no other result than what its own body leaves behind. -/
theorem result (h : Working p) {job : Job α} (hjob : job ∈ p.queue) (hmore : Soundly p fs q)
    {r : Result α} (hr : q.result? job.ticket = some r) : r = job.outcome := by
  have htask : (submissions es)[job.ticket]? = some (job.index, job.body) :=
    (tracked_of_steps hrun).queued_task job hjob
  obtain ⟨hmore, hsound⟩ := hmore
  induction hmore using steps_induction with
  | nil => cases ((tracked_of_steps hrun).queued_pending job hjob).symm.trans hr
  | snoc fs m e q hm hstep ih =>
    have hbefore : ∀ e ∈ fs, e.Sound := fun e he => hsound e (List.mem_append_left _ he)
    have hworking := h.soundly hrun ⟨hm, hbefore⟩
    have htracked := tracked_of_steps (steps_trans hrun hm)
    rcases (result?_step htracked (moves_of_step hstep) _ r).mp hr with hold | hsettles
    · exact ih hold hbefore
    generalize ht : job.ticket = t at hsettles
    cases hsettles with
    | ran hat =>
      -- the worker has the task that was handed in for the ticket, and so has the queue
      have hheld := htracked.held_task _ _ (view_of_stage hat)
      rw [submissions_append, ← ht, List.getElem?_append_left
        (List.getElem?_eq_some_iff.mp htask).1, htask] at hheld
      obtain ⟨hindex, hbody⟩ := Prod.mk.inj (Option.some.inj hheld)
      rw [Job.outcome, Job.outcome, hindex, hbody]
    | cancelled => exact (hsound (.close false) (by simp)).elim
    | orphaned hat => cases (view_of_stage hat).symm.trans (hworking.unharmed _)
    | givenUp hat => cases (view_of_stage hat).symm.trans (hworking.unharmed _)

/-- When the workers rest, everything is done. A pool that works has a worker in the loop, by
`Staffed`, and that one would not rest with a job in the queue. -/
theorem settled (hmin : 1 ≤ config.minWorkers) (hmax : config.minWorkers ≤ config.maxWorkers)
    (h : Working p) (hstill : Still p) : p.queue = [] ∧ ∀ t < p.accepted, (p.result? t).isSome := by
  have hidle := idle_of_still (roster_of_steps hrun) h.unharmed hstill
  obtain ⟨count, hpos, -, hstaffed, -⟩ := staffed_of_steps hmin hmax hrun
  have hqueue : p.queue = [] := by
    by_contra hjobs
    have hbalanced := hstaffed.balanced ⟨h.running, .inr hjobs⟩
    have := hbalanced.inLoop
    have := hbalanced.least
    have := hstaffed.retiring
    exact hjobs (hidle.queue_eq_nil (by omega))
  exact ⟨hqueue, fun t ht => hidle.settled hrun hqueue ht⟩

end

end Working

/-- Unless the pool is shut down or a reading fails, the jobs are done: workers that are left to
themselves come to rest, and whenever they rest each of the jobs has as its result what its own body
leaves behind. -/
structure Completes (jobs : List (Job α)) (p : Pool α) : Prop where
  rests : ∃ fs q, Soundly p fs q ∧ (∀ e ∈ fs, e.byWorker = true) ∧ Still q
  done : ∀ fs q, Soundly p fs q → Still q → q.queue = [] ∧
    ∀ job ∈ jobs, q.result? job.ticket = some job.outcome

/-- A pool that works completes what is in its queue: workers come to rest by `comes_to_rest`, and
where they rest everything is settled. -/
theorem Working.completes {config : Config} {now : Int} {es : List (Event α)} {p : Pool α}
    (hmin : 1 ≤ config.minWorkers) (hmax : config.minWorkers ≤ config.maxWorkers) (h : Working p)
    (hrun : (create config now).steps es = some p) : Completes p.queue p := by
  refine ⟨comes_to_rest hrun, fun fs q hmore hstill => ?_⟩
  have hend := steps_trans hrun hmore.run
  obtain ⟨hqueue, hsettled⟩ := (h.soundly hrun hmore).settled hend hmin hmax hstill
  refine ⟨hqueue, fun job hjob => ?_⟩
  have hlt : job.ticket < q.accepted := by
    have hticket := (((tracked_of_steps hrun).mem_queue _).mp (List.mem_map_of_mem hjob)).2
    rw [(tracked_of_steps hrun).accepted] at hticket
    rw [(tracked_of_steps hend).accepted, submissions_append, List.length_append]
    omega
  obtain ⟨r, hr⟩ := Option.isSome_iff_exists.mp (hsettled _ hlt)
  rw [hr, h.result hrun hjob hmore hr]

/-! ## Starts -/

theorem recruits_eq_nil {launches : Nat → Bool} {first count : Nat} :
    recruits (α := α) launches first count = [] ↔ ∀ i < count, launches (first + i) = false := by
  rw [recruits, List.map_eq_nil_iff, List.filter_eq_nil_iff]
  constructor
  · intro h i hi
    simpa using h (first + i) (List.mem_range'_1.mpr ⟨by omega, by omega⟩)
  · intro h j hj
    obtain ⟨i, rfl⟩ := Nat.exists_eq_add_of_le (List.mem_range'_1.mp hj).1
    simpa using h i (by have := (List.mem_range'_1.mp hj).2; omega)

section

variable {config : Config} {now : Int} {es : List (Event α)} {p : Pool α} {launches : Nat → Bool}
  (hmin : 1 ≤ config.minWorkers) (hmax : config.minWorkers ≤ config.maxWorkers)
  (hrun : (create config now).steps es = some p) (hcreated : p.phase = .created)
  (hfree : p.draft = none)

include hrun hcreated

/-- A start that launches some worker opens the pool, with or without a monitor. Without one it ends
with a fault all the same. -/
theorem start_opens (hsome : ∃ i < config.minWorkers.toNat, launches (p.nextWorker + i) = true)
    (monitor : Bool) (time : Int) :
    p.start launches monitor time =
      ((p.opened launches monitor time).sketch (p.window.estimate time) 0.0 0 time,
        if monitor then none else some .noMonitor) := by
  have hconfig : p.config = config := config_of_steps hrun
  have hrecruits : recruits (α := α) launches p.nextWorker p.config.minWorkers.toNat ≠ [] := by
    rw [hconfig, ne_eq, recruits_eq_nil]
    intro hnone
    obtain ⟨i, hi, hlaunch⟩ := hsome
    cases hlaunch.symm.trans (hnone i hi)
  rw [start_created launches monitor time hcreated, if_neg hrecruits]

include hmin hmax

/-- A start that launches no worker changes nothing but the number of the next attempt: it is
`renumber`. -/
theorem start_fails (hnone : ∀ i < config.minWorkers.toNat, launches (p.nextWorker + i) = false)
    (monitor : Bool) (time : Int) :
    p.start launches monitor time = (p.renumber config.minWorkers.toNat, some .noWorker) := by
  have hconfig : p.config = config := config_of_steps hrun
  have hrecruits : recruits (α := α) launches p.nextWorker p.config.minWorkers.toNat = [] := by
    rw [hconfig]
    exact recruits_eq_nil.mpr hnone
  -- nobody is there whose number could change
  have hnobody := (vacant_of_created hmin hmax hrun hcreated).workers
  rw [start_created launches monitor time hcreated, if_pos hrecruits, renumber, hnobody, ← hconfig]
  rfl

include hfree

/-- The jobs that wait for a start are done after it (`Completes`), whether or not the monitor could
be launched. -/
theorem start_completes (hsome : ∃ i < config.minWorkers.toNat, launches (p.nextWorker + i) = true)
    (monitor : Bool) (time : Int) : Completes p.queue (p.start launches monitor time).1 := by
  have hnext := steps_snoc.mpr ⟨p, hrun, step_start hfree launches monitor time⟩
  rw [start_opens hrun hcreated hsome monitor time] at hnext ⊢
  refine Working.completes hmin hmax ⟨rfl, fun id => ?_⟩ hnext
  have hfree : ∀ w ∈ p.workers ++ recruits launches p.nextWorker p.config.minWorkers.toNat,
      w.stage = .free := by
    intro w hw
    rw [(vacant_of_created hmin hmax hrun hcreated).workers, List.nil_append] at hw
    obtain ⟨_, _, rfl⟩ := List.mem_map.mp hw
    rfl
  rw [Option.eq_none_iff_forall_ne_some]
  intro seen hseen
  obtain ⟨t, hat, ht⟩ := view_eq_some.mp hseen
  cases hfree _ (Roster.mem_workers hat)
  cases ht

/-- **A start that fails changes nothing.** A pool that was never started, in any state that it can
be in when the call gets the lock, is told to start. If no attempt to launch one of its least number
of workers succeeds, the call ends with a fault, and nothing of the pool has changed but the number
of the next attempt. Whatever happens after that could have happened without the call, and it leads
to the same state but for the numbers of workers; and the other way round (`Mirrors`). So a later
start that can launch a worker does all the jobs in the queue (`Completes`). If some attempts
succeed, the pool runs with the workers that they launched, and has no others, whether or not the
monitor can be launched. -/
theorem failed_start_changes_nothing (launches : Nat → Bool) (monitor : Bool) (time : Int) :
    let n := config.minWorkers.toNat
    let q := (p.start launches monitor time).1
    let fault := (p.start launches monitor time).2
    ((∀ i < n, launches (p.nextWorker + i) = false) →
      fault = some .noWorker ∧ Fault.kind .noWorker = .poolFailure ∧
      q = { p with nextWorker := p.nextWorker + n } ∧ Mirrors n p q ∧
      ∀ launches' monitor' time', (∃ i < n, launches' (q.nextWorker + i) = true) →
        (q.start launches' monitor' time').2 = (if monitor' then none else some .noMonitor) ∧
          Completes p.queue (q.start launches' monitor' time').1) ∧
    ((∃ i < n, launches (p.nextWorker + i) = true) →
      fault = (if monitor then none else some .noMonitor) ∧
      q.phase = .running ∧ q.active = p.launched launches ∧ q.live = p.launched launches ∧
      q.workers = ((List.range' p.nextWorker n).filter launches).map (⟨·, .free⟩) ∧
      q.queue = p.queue ∧ Completes p.queue q) := by
  intro n q fault
  have hnobody := (vacant_of_created hmin hmax hrun hcreated).workers
  refine ⟨fun hnone => ?_, fun hsome => ?_⟩
  · -- the attempt fails: only numbers are used up, and the next start finds the same pool
    have hfails := start_fails hmin hmax hrun hcreated hnone monitor time
    have hq : q = p.renumber n := congrArg Prod.fst hfails
    have hnext := steps_snoc.mpr ⟨p, hrun, step_start hfree launches monitor time⟩
    have hstill : q.phase = .created := by rw [hq]; exact hcreated
    have hunlocked : q.draft = none := by rw [hq]; exact hfree
    refine ⟨congrArg Prod.snd hfails, rfl, ?_, hq ▸ mirrors_renumber n p,
      fun launches' monitor' time' hsome => ?_⟩
    · rw [hq, renumber, hnobody, List.map_nil]
    · have hqueue : q.queue = p.queue := by rw [hq]; rfl
      rw [← hqueue]
      exact ⟨congrArg Prod.snd (start_opens hnext hstill hsome monitor' time'),
        start_completes hmin hmax hnext hstill hunlocked hsome monitor' time'⟩
  · -- the attempt succeeds: all that is left to do is to read off the pool it opens
    have hopens := start_opens hrun hcreated hsome monitor time
    have hq : q = _ := congrArg Prod.fst hopens
    have hconfig : p.config = config := config_of_steps hrun
    have hlive : p.live = 0 := (roster_of_steps hrun).live_of_nobody hnobody
    have hcount : (recruits (α := α) launches p.nextWorker p.config.minWorkers.toNat).length =
      p.launched launches := length_recruits launches _ _
    refine ⟨congrArg Prod.snd hopens, by rw [hq]; rfl, ?_, ?_, ?_, by rw [hq]; rfl,
      start_completes hmin hmax hrun hcreated hfree hsome monitor time⟩
    · rw [hq, ← hcount]
      rfl
    · rw [hq, ← hcount]
      show p.live + _ = _
      rw [hlive, Int.zero_add]
    · rw [hq]
      show p.workers ++ recruits launches p.nextWorker p.config.minWorkers.toNat = _
      rw [hnobody, hconfig, List.nil_append]
      rfl

end

/-- Two tasks wait for a start, one of which will fail. -/
def twoWaiting : List (Event Nat) :=
  [.number, .enqueue 0 (.ok 7), .number, .enqueue 1 (.error (.raised .runtime (text "no")))]

/-- The first start can launch none of two workers. In the second one only the second attempt
succeeds, which is the fourth of all. -/
theorem failed_start_changes_nothing_retried :
    ∃ p q : Pool Nat, (create { minWorkers := 2, maxWorkers := 2 } 0).steps twoWaiting = some p ∧
      p.phase = .created ∧ p.draft = none ∧ p.start (fun _ => false) true 5 = (q, some .noWorker) ∧
      q = { p with nextWorker := 2 } ∧ Mirrors 2 p q ∧ (q.start (· == 3) true 6).2 = none ∧
      Completes p.queue (q.start (· == 3) true 6).1 ∧
        (p.start (· == 1) true 5).1.workers = [⟨1, .free⟩] := by
  let config : Config := { minWorkers := 2, maxWorkers := 2 }
  obtain ⟨p, hrun, hphase, hfree, hnext⟩ :
    ∃ p : Pool Nat, (create config 0).steps twoWaiting = some p ∧
      p.phase = .created ∧ p.draft = none ∧ p.nextWorker = 0 := ⟨_, rfl, rfl, rfl, rfl⟩
  have hstart (launches : Nat → Bool) :=
    failed_start_changes_nothing (by decide) (by decide) hrun hphase hfree launches true 5
  obtain ⟨hfault, -, hq, hmirrors, hlater⟩ := (hstart fun _ => false).1 fun _ _ => rfl
  have hsecond : ∃ i < 2, ((p.start (fun _ => false) true 5).1.nextWorker + i == 3) = true :=
    ⟨1, by decide, by rw [hq, hnext]; rfl⟩
  obtain ⟨hok, hdone⟩ := hlater (· == 3) true 6 hsecond
  obtain ⟨-, -, -, -, hworkers, -⟩ := (hstart (· == 1)).2 ⟨1, by decide, by rw [hnext]; decide⟩
  refine ⟨p, (p.start (fun _ => false) true 5).1, hrun, hphase, hfree, Prod.ext rfl hfault, ?_,
    hmirrors, hok, hdone, ?_⟩
  · rw [hnext] at hq
    exact hq
  · rw [hworkers, hnext]
    rfl

end Headroom.Pool
