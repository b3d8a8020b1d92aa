import Headroom.Proofs.Shutdown
import Headroom.Proofs.Tracking
import Mathlib.Data.List.Perm.Subperm

/-!
# The last snapshot

A shutdown that waits ends with a snapshot of the pool, unless the one that is there counts every
task already. This module says what the counters count and what such a snapshot shows.

A worker counts a job after it has measured it, and a job that failed a second time after that; a
snapshot reads the counters one after the other. So each of these may lag behind the other.

* **`finished`**: the jobs that a run finished, each with the stopwatch read at its end. `Finished`
  ties the counters of a pool, with what workers have still to count, to this list, and says that no
  ticket is in it twice.
* **`Counted`**: the latest snapshot, and the one that is put together, do not run ahead of the
  counters.
* **`Reported`**, **`Shown`**: what the latest snapshot says of the phase and of the queue.
* **`last_snapshot`**: after the call the pool is stopped, and the snapshot says so and has the
  right counts. It may still show workers and waiting jobs that are no more, if the call keeps the
  snapshot that it finds.
-/

namespace Headroom.Pool

variable {α : Type}

/-! ## Finished jobs -/

/-- The job that an event finishes: the one that its worker has run, when the stopwatch
is stopped. -/
def finishedBy (p : Pool α) : Event α → Option (Job α)
  | .work id (.finish (.ok _) _) => p.view Stage.behind? id
  | _ => none

/-- The jobs that a run finishes, in order: what `finishedBy` finds at each of its steps. -/
def finished (p : Pool α) : List (Event α) → List (Job α)
  | [] => []
  | e :: es =>
    match p.step e with
    | none => []
    | some q => (p.finishedBy e).toList ++ q.finished es

theorem finished_snoc {p q r : Pool α} {es : List (Event α)} {e : Event α}
    (hrun : p.steps es = some q) (hstep : q.step e = some r) :
    p.finished (es ++ [e]) = p.finished es ++ (q.finishedBy e).toList := by
  induction es generalizing p with
  | nil =>
    cases hrun
    simp [finished, hstep]
  | cons e' es ih =>
    rw [steps, Option.bind_eq_some_iff] at hrun
    obtain ⟨m, hm, hrest⟩ := hrun
    simp only [List.cons_append, finished, hm, ih hrest, List.append_assoc]

/-! ## What leaves the queue -/

theorem Moves.departed_le {p q : Pool α} {e : Event α} (hm : Moves p e q) :
    p.departed ≤ q.departed := by
  cases hm with
  | enqueue =>
    simp only [departed, accepted, Pool.enqueue, List.length_append, List.length_singleton]
    omega
  | cancel | shut =>
    show p.accepted - p.queue.length ≤ (p.settleAll p.queue _).accepted - 0
    rw [accepted_settleAll]
    omega
  | @take _ _ rest _ _ hqueue =>
    show p.accepted - p.queue.length ≤ p.accepted - rest.length
    rw [hqueue, List.length_cons]
    omega
  | run | abandon =>
    show p.accepted - p.queue.length ≤ (p.settle _ _).accepted - p.queue.length
    exact Nat.le_of_eq (by rw [accepted_settle])
  | look _ hresize => cases hresize <;> exact Nat.le_refl _
  | _ => exact Nat.le_refl _

/-! ## What the counters count -/

/-- Whether a worker has finished a job that it has not counted. -/
def Stage.uncounted : Stage α → Bool
  | .measured _ => true
  | _ => false

/-- Whether a worker has counted a job that failed, but not yet as such. -/
def Stage.halfCounted : Stage α → Bool
  | .counted _ => true
  | _ => false

/-- Whether a worker has finished a job that failed and has not counted it as such. -/
def Stage.owing : Stage α → Bool
  | .measured job => job.fails
  | .counted _ => true
  | _ => false

/-- The counters of a pool, with what its workers have still to count (`Stage.uncounted`,
`Stage.owing`), are those of the jobs it has finished. No job is finished twice: once it is, it is
neither in the queue nor in the hands of a worker. -/
structure Finished (done : List (Job α)) (p : Pool α) : Prop where
  completed : p.completed + p.standing Stage.uncounted = done.length
  failed : p.failed + p.standing Stage.owing = done.countP Job.fails
  distinct : (done.map Job.ticket).Nodup
  departed : ∀ job ∈ done, job.ticket < p.departed
  released : ∀ job ∈ done, ∀ i job', p.held i = some job' → job'.ticket ≠ job.ticket

namespace Finished

variable {done : List (Job α)} {tasks : List (Nat × Result α)} {p q : Pool α}

theorem length_le (h : Finished done p) : done.length ≤ p.departed := by
  have hsub : done.map Job.ticket ⊆ List.range p.departed := by
    intro t ht
    obtain ⟨job, hjob, rfl⟩ := List.mem_map.mp ht
    exact List.mem_range.mpr (h.departed job hjob)
  have hle := (List.subperm_of_subset h.distinct hsub).length_le
  rwa [List.length_map, List.length_range] at hle

/-- A step that finishes nothing keeps `Finished`, if it moves jobs only between the counters and
what is owed to them. -/
theorem carry (h : Finished done p) (htracked : Tracked tasks p) (hroster : Roster p) {e : Event α}
    (hm : Moves p e q)
    (hcompleted : q.completed + q.standing Stage.uncounted =
      p.completed + p.standing Stage.uncounted)
    (hfailed : q.failed + q.standing Stage.owing = p.failed + p.standing Stage.owing) :
    Finished done q := by
  refine ⟨hcompleted.trans h.completed, hfailed.trans h.failed, h.distinct,
    fun job hjob => Nat.lt_of_lt_of_le (h.departed job hjob) hm.departed_le,
      fun job hjob i job' hi => ?_⟩
  -- a job that a worker has just taken was still in the queue, unlike those that are finished
  rcases hm.held_before hroster hi with hold | ⟨_, rest, hqueue⟩
  · exact h.released job hjob i job' hold
  · have := h.departed job hjob
    have := ((htracked.mem_queue job'.ticket).mp (by simp [hqueue])).1
    omega

/-- The worker that finishes a job was the only one to have it, so it was not finished before. -/
theorem finish (h : Finished done p) (htracked : Tracked tasks p) (hroster : Roster p) {id : Nat}
    {job : Job α} {watch : Stopwatch} (hat : p.stage? id = some (.ran job watch))
    (mailbox : Mailbox) :
    Finished (done ++ [job]) ({ p with mailbox }.setStage id (.measured job)) := by
  have hheld : p.held id = some job := view_of_stage hat
  have hview (i : Nat) (job' : Job α) (hi : (p.setStage id (.measured job)).held i = some job') :
      i ≠ id ∧ p.held i = some job' := by
    rw [held, view_setStage hat] at hi
    split at hi
    · cases hi
    · next hne => exact ⟨hne, hi⟩
  constructor
  · -- the job is finished but not counted yet, which `uncounted` makes up for
    have hone := hroster.standing_setStage hat (.measured job) Stage.uncounted
    have hcompleted := h.completed
    show p.completed + (p.setStage id (.measured job)).standing Stage.uncounted =
      (done ++ [job]).length
    rw [List.length_append, List.length_singleton]
    simp only [Stage.uncounted, if_true, Bool.false_eq_true, if_false] at hone
    omega
  · -- the same for a failure, which is owed until the worker counts it
    have hone := hroster.standing_setStage hat (.measured job) Stage.owing
    have hfailed := h.failed
    show p.failed + (p.setStage id (.measured job)).standing Stage.owing =
      (done ++ [job]).countP Job.fails
    rw [List.countP_append, List.countP_singleton]
    simp only [Stage.owing, Bool.false_eq_true, if_false] at hone
    cases hbad : job.fails <;>
      · simp only [hbad, if_true, Bool.false_eq_true, if_false] at hone ⊢
        omega
  · rw [List.map_append, List.nodup_append]
    -- the job was in hand until now, so it is none of those finished before
    refine ⟨h.distinct, by simp, fun t ht u hu => ?_⟩
    obtain ⟨job', hjob', rfl⟩ := List.mem_map.mp ht
    rw [List.map_singleton, List.mem_singleton] at hu
    rw [hu]
    exact (h.released job' hjob' id job hheld).symm
  · intro job' hjob'
    rcases List.mem_append.mp hjob' with hold | hnew
    · exact h.departed job' hold
    · rw [List.mem_singleton.mp hnew]
      exact htracked.held_departed id job hheld
  · intro job' hjob' i other hi
    obtain ⟨hne, hi⟩ := hview i other hi
    rcases List.mem_append.mp hjob' with hold | hnew
    · exact h.released job' hold i other hi
    · rw [List.mem_singleton.mp hnew]
      exact fun heq => hne (htracked.held_once i id other job hi hheld heq)

/-- What a worker does to a job after it was finished moves it from what is to be counted to the
counters. -/
theorem move (h : Finished done p) (htracked : Tracked tasks p) (hroster : Roster p) {e : Event α}
    (hm : Moves p e q) : Finished (done ++ (p.finishedBy e).toList) q := by
  have same := h.carry htracked hroster hm
  have others (he : e.byWorker = false) (hcompleted : q.completed = p.completed)
      (hfailed : q.failed = p.failed) (hnone : p.finishedBy e = none) :
      Finished (done ++ (p.finishedBy e).toList) q := by
    rw [hnone, Option.toList_none, List.append_nil]
    refine same ?_ ?_
    · rw [hcompleted, hroster.standing_move hm he rfl rfl]
    · rw [hfailed, hroster.standing_move hm he rfl rfl]
  -- a worker that takes up another stage, with nothing more or less to be counted
  have kept {id : Nat} {t s : Stage α} (hat : p.stage? id = some t)
      (hworkers : q.workers = (p.setStage id s).workers) (hcompleted : q.completed = p.completed)
      (hfailed : q.failed = p.failed) (huncounted : s.uncounted = t.uncounted)
      (howing : s.owing = t.owing) (hnone : p.finishedBy e = none) :
      Finished (done ++ (p.finishedBy e).toList) q := by
    rw [hnone, Option.toList_none, List.append_nil]
    have hstanding (f : Stage α → Bool) : q.standing f = (p.setStage id s).standing f := by
      rw [standing, hworkers, standing]
    refine same ?_ ?_
    · rw [hcompleted, hstanding, hroster.standing_same hat huncounted]
    · rw [hfailed, hstanding, hroster.standing_same hat howing]
  cases hm with
  | number | enqueue | startLate | startFails | start | drain | cancel | markUnstarted | markRunning
  | markLate | collect | concludeSame | conclude | survey | lookIdle | readQueued | readCompleted
  | readFailed => exact others rfl rfl rfl rfl
  | look _ hresize => cases hresize <;> exact others rfl rfl rfl rfl
  | retire hat | depart hat | take hat | begin hat | beginFails hat | run hat | finishFails hat
  | shut hat | shutAgain hat | yield hat | abandon hat | leave hat | leaveLast hat =>
    exact kept hat rfl rfl rfl rfl rfl rfl
  | finish hat =>
    rw [finishedBy, view_of_stage hat]
    exact h.finish htracked hroster hat _
  | @count id job hat hgood =>
    have hone := hroster.standing_setStage hat .free Stage.uncounted
    have howing := hroster.standing_setStage hat .free Stage.owing
    simp only [Stage.uncounted, Stage.owing, hgood, if_true, Bool.false_eq_true, if_false]
      at hone howing
    refine List.append_nil _ ▸ same ?_ ?_
    · show p.completed + 1 + (p.setStage id .free).standing Stage.uncounted = _
      omega
    · show p.failed + (p.setStage id .free).standing Stage.owing = _
      omega
  | @countFailing id job hat hbad =>
    have hone := hroster.standing_setStage hat (.counted job) Stage.uncounted
    have howing := hroster.standing_setStage hat (.counted job) Stage.owing
    simp only [Stage.uncounted, Stage.owing, hbad, if_true, Bool.false_eq_true, if_false]
      at hone howing
    refine List.append_nil _ ▸ same ?_ ?_
    · show p.completed + 1 + (p.setStage id (.counted job)).standing Stage.uncounted = _
      omega
    · show p.failed + (p.setStage id (.counted job)).standing Stage.owing = _
      omega
  | @countFailed id job hat =>
    have hone := hroster.standing_setStage hat .free Stage.uncounted
    have howing := hroster.standing_setStage hat .free Stage.owing
    simp only [Stage.uncounted, Stage.owing, if_true, Bool.false_eq_true, if_false] at hone howing
    refine List.append_nil _ ▸ same ?_ ?_
    · show p.completed + (p.setStage id .free).standing Stage.uncounted = _
      omega
    · show p.failed + 1 + (p.setStage id .free).standing Stage.owing = _
      omega

/-- When all workers have exited, nobody owes anything to the counters, and every finished job is
counted. -/
theorem of_exited (h : Finished done p) (hroster : Roster p) (hlive : p.live = 0) :
    p.completed = done.length ∧ p.failed = done.countP Job.fails := by
  have hcompleted := h.completed
  have hfailed := h.failed
  rw [hroster.standing_of_live hlive rfl] at hcompleted hfailed
  exact ⟨hcompleted, hfailed⟩

end Finished

/-- The counters of every run are those of the jobs it has finished, up to what is owed
(`Finished`). -/
theorem finished_of_steps {config : Config} {now : Int} {es : List (Event α)} {p : Pool α}
    (h : (create config now).steps es = some p) : Finished ((create config now).finished es) p := by
  induction h using steps_induction with
  | nil => exact ⟨rfl, rfl, List.nodup_nil, nofun, nofun⟩
  | snoc es p e q hrun hstep ih =>
    rw [finished_snoc hrun hstep]
    exact ih.move (tracked_of_steps hrun) (roster_of_steps hrun) (moves_of_step hstep)

/-! ## How a snapshot lags behind -/

def Tally.queued? : Tally → Option Nat
  | .nothing => none
  | Tally.queued n | Tally.completed n _ => some n

def Tally.completed? : Tally → Option Nat
  | .nothing | Tally.queued _ => none
  | Tally.completed _ n => some n

/-- Jobs are counted before they are counted as failed, and neither the latest snapshot nor the one
that is put together runs ahead of the counters. -/
structure Counted (p : Pool α) : Prop where
  failed : p.failed + p.standing Stage.halfCounted ≤ p.completed
  completedBehind : p.latest.completed ≤ p.completed
  failedBehind : p.latest.failed ≤ p.failed
  drafted : ∀ d c, p.draft = some d → d.tally.completed? = some c → p.latest.completed ≤ c ∧
    c ≤ p.completed

namespace Counted

variable {p q : Pool α}

/-- What leaves the snapshots alone and does not lower a counter keeps `Counted`. -/
theorem carry (h : Counted p) (hfailed : q.failed + q.standing Stage.halfCounted ≤ q.completed)
    (hlatest : q.latest = p.latest) (hdraft : q.draft = p.draft)
    (hcompleted : p.completed ≤ q.completed) (hfailures : p.failed ≤ q.failed) : Counted q := by
  refine ⟨hfailed, ?_, ?_, fun d c hd hc => ?_⟩
  · rw [hlatest]
    exact Nat.le_trans h.completedBehind hcompleted
  · rw [hlatest]
    exact Nat.le_trans h.failedBehind hfailures
  · rw [hdraft] at hd
    rw [hlatest]
    exact ⟨(h.drafted d c hd hc).1, Nat.le_trans (h.drafted d c hd hc).2 hcompleted⟩

/-- What does not count anything, and puts no more into a draft than is counted. -/
theorem drawn (h : Counted p) (hworkers : q.standing Stage.halfCounted =
    p.standing Stage.halfCounted)
    (hcompleted : q.completed = p.completed) (hfailed : q.failed = p.failed)
    (hlatest : p.latest.completed ≤ q.latest.completed ∧ q.latest.completed ≤ p.completed)
    (hfailures : q.latest.failed ≤ p.failed)
    (hdrafted : ∀ d c, q.draft = some d → d.tally.completed? = some c →
      q.latest.completed ≤ c ∧ c ≤ p.completed) : Counted q := by
  have hhalf := h.failed
  exact ⟨by omega, by omega, by omega, fun d c hd hc => hcompleted ▸ hdrafted d c hd hc⟩

theorem move (h : Counted p) (hroster : Roster p) {e : Event α} (hm : Moves p e q) : Counted q := by
  have hhalf := h.failed
  have others (he : e.byWorker = false) :
      q.standing Stage.halfCounted = p.standing Stage.halfCounted :=
    hroster.standing_move hm he rfl rfl
  have same (he : e.byWorker = false) (hcompleted : q.completed = p.completed)
      (hfailed : q.failed = p.failed) (hlatest : q.latest = p.latest) (hdraft : q.draft = p.draft) :
      Counted q :=
    h.carry (by rw [others he]; omega) hlatest hdraft (by omega) (by omega)
  -- a lock that was free is taken, and nothing is read yet
  have taken (he : e.byWorker = false) (hcompleted : q.completed = p.completed)
      (hfailed : q.failed = p.failed) (hlatest : q.latest = p.latest)
      (hdraft : ∀ d, q.draft = some d → d.tally = .nothing) : Counted q := by
    refine h.drawn (others he) hcompleted hfailed ?_ ?_ fun d c hd hc => ?_
    · rw [hlatest]
      exact ⟨Nat.le_refl _, h.completedBehind⟩
    · rw [hlatest]
      exact h.failedBehind
    · rw [hdraft d hd] at hc
      cases hc
  have kept {id : Nat} {t s : Stage α} (hat : p.stage? id = some t)
      (hworkers : q.workers = (p.setStage id s).workers) (hs : s.halfCounted = t.halfCounted)
      (hcompleted : p.completed ≤ q.completed) (hfailed : q.failed = p.failed)
      (hlatest : q.latest = p.latest) (hdraft : q.draft = p.draft) : Counted q := by
    have hstanding : q.standing Stage.halfCounted = p.standing Stage.halfCounted := by
      rw [standing, hworkers]
      exact hroster.standing_same hat hs
    exact h.carry (by omega) hlatest hdraft hcompleted (by omega)
  cases hm with
  | number | enqueue | startLate | startFails | drain | cancel | markRunning | markLate | collect
  | concludeSame | survey => exact same rfl rfl rfl rfl rfl
  | markUnstarted _ hfree =>
    refine h.drawn (others rfl) rfl rfl ⟨Nat.le_refl _, h.completedBehind⟩ h.failedBehind
      fun d c hd _ => ?_
    cases hfree.symm.trans hd
  | start =>
    refine taken rfl rfl rfl rfl fun d hd => ?_
    cases hd
    rfl
  | look _ hresize =>
    cases hresize <;>
      · refine taken rfl rfl rfl rfl fun d hd => ?_
        cases hd
        rfl
  | lookIdle =>
    refine taken rfl rfl rfl rfl fun d hd => ?_
    cases hd
    rfl
  | conclude =>
    refine h.drawn (others rfl) rfl rfl ⟨h.completedBehind, Nat.le_refl _⟩ (Nat.le_refl _) ?_
    intro d c hd
    cases hd
  | readQueued =>
    refine h.drawn (others rfl) rfl rfl ⟨Nat.le_refl _, h.completedBehind⟩ h.failedBehind
      fun d c hd hc => ?_
    cases hd
    cases hc
  | readCompleted =>
    refine h.drawn (others rfl) rfl rfl ⟨Nat.le_refl _, h.completedBehind⟩ h.failedBehind
      fun d c hd hc => ?_
    cases hd
    cases hc
    exact ⟨h.completedBehind, Nat.le_refl _⟩
  | readFailed hdraft htally =>
    obtain ⟨hlow, hhigh⟩ := h.drafted _ _ hdraft (by rw [htally]; rfl)
    refine h.drawn (others rfl) rfl rfl ⟨hlow, hhigh⟩ (Nat.le_refl _) ?_
    intro d c hd
    cases hd
  | retire hat | depart hat | take hat | begin hat | beginFails hat | run hat | finish hat
  | finishFails hat | shut hat | shutAgain hat | yield hat | abandon hat | leave hat =>
    exact kept hat rfl rfl (Nat.le_refl _) rfl rfl rfl
  | count hat => exact kept hat rfl rfl (Nat.le_succ _) rfl rfl rfl
  | @countFailing id job hat =>
    have hone := hroster.standing_setStage hat (.counted job) Stage.halfCounted
    simp only [Stage.halfCounted, if_true, Bool.false_eq_true, if_false] at hone
    refine h.carry ?_ rfl rfl (Nat.le_succ _) (Nat.le_refl _)
    show p.failed + (p.setStage id (.counted job)).standing Stage.halfCounted ≤ p.completed + 1
    omega
  | @countFailed id job hat =>
    have hone := hroster.standing_setStage hat .free Stage.halfCounted
    simp only [Stage.halfCounted, if_true, Bool.false_eq_true, if_false] at hone
    refine h.carry ?_ rfl rfl (Nat.le_refl _) (Nat.le_succ _)
    show p.failed + 1 + (p.setStage id .free).standing Stage.halfCounted ≤ p.completed
    omega
  | @leaveLast id now hat hlast hphase hfree =>
    have hstanding : ({ p with live := p.live - 1 }.setStage id .gone).standing Stage.halfCounted =
        p.standing Stage.halfCounted := hroster.standing_same hat rfl
    refine h.drawn hstanding rfl rfl ⟨Nat.le_refl _, h.completedBehind⟩ h.failedBehind
      fun d c hd _ => ?_
    cases hfree.symm.trans hd

end Counted

theorem counted_of_steps {config : Config} {now : Int} {es : List (Event α)} {p : Pool α}
    (h : (create config now).steps es = some p) : Counted p := by
  induction h using steps_induction with
  | nil => exact ⟨Nat.le_refl 0, Nat.le_refl 0, Nat.le_refl 0, nofun⟩
  | snoc es p e q hrun hstep ih => exact ih.move (roster_of_steps hrun) (moves_of_step hstep)

/-- The latest snapshot against the pool: if it says that the pool is stopped, that is so, and it
never shows more waiting jobs than were accepted. Before the start nothing is finished. -/
structure Reported (p : Pool α) : Prop where
  queued : p.queued = p.queue.length
  stopped : p.latest.phase = some .stopped → p.phase = .stopped
  unstarted : p.phase = .created → p.completed = 0 ∧ p.failed = 0 ∧ p.mailbox.pending = []
  covered : p.latest.queued ≤ p.accepted
  drafted : ∀ d n, p.draft = some d → d.tally.queued? = some n → n ≤ p.accepted

namespace Reported

variable {p q : Pool α}

/-- What leaves the snapshots, the counters and the mailbox alone, and goes forward in phase. -/
theorem carry (h : Reported p) (hrank : p.phase.rank ≤ q.phase.rank)
    (hqueued : q.queued = q.queue.length) (hlatest : q.latest = p.latest)
    (hdraft : q.draft = p.draft) (hcompleted : q.completed = p.completed)
    (hfailed : q.failed = p.failed) (hpending : p.mailbox.pending = [] → q.mailbox.pending = [])
    (haccepted : p.accepted ≤ q.accepted) : Reported q := by
  refine ⟨hqueued, fun hs => ?_, fun hc => ?_, ?_, fun d n hd hn => ?_⟩
  · rw [hlatest] at hs
    rw [h.stopped hs] at hrank
    exact Phase.eq_stopped hrank
  · rw [hc] at hrank
    obtain ⟨hzero, hnone, hempty⟩ := h.unstarted (Phase.eq_created (Nat.le_zero.mp hrank))
    exact ⟨hcompleted.trans hzero, hfailed.trans hnone, hpending hempty⟩
  · rw [hlatest]
    exact Nat.le_trans h.covered haccepted
  · rw [hdraft] at hd
    exact Nat.le_trans (h.drafted d n hd hn) haccepted

/-- What a worker does after the start keeps `Reported`, since no snapshot is touched by it. -/
theorem counts (h : Reported p) (hphase : q.phase ≠ .created) (hqueued : q.queued = q.queue.length)
    (hsame : q.phase = p.phase) (hlatest : q.latest = p.latest) (hdraft : q.draft = p.draft)
    (haccepted : q.accepted = p.accepted) : Reported q := by
  refine ⟨hqueued, fun hs => ?_, fun hc => absurd hc hphase, ?_, fun d n hd hn => ?_⟩
  · rw [hlatest] at hs
    exact hsame.trans (h.stopped hs)
  · rw [hlatest, haccepted]
    exact h.covered
  · rw [hdraft] at hd
    rw [haccepted]
    exact h.drafted d n hd hn

theorem move (h : Reported p) (hcovered : p.queue.length ≤ p.accepted)
    (hstarted : ∀ id t, p.stage? id = some t → p.phase ≠ .created) {e : Event α}
    (hm : Moves p e q) :
    Reported q := by
  have carry := h.carry hm.rank_le
  have hcancelled (r : Result α) : p.accepted ≤ (p.settleAll p.queue r).accepted :=
    Nat.le_of_eq (accepted_settleAll ..).symm
  -- the lock is taken, and nothing is read yet
  have taken (hqueued : q.queued = q.queue.length) (hlatest : q.latest = p.latest)
      (hphase : q.phase = p.phase ∨ p.phase = .created ∧ q.phase = .running)
      (hcompleted : q.completed = p.completed) (hfailed : q.failed = p.failed)
      (hpending : q.mailbox = p.mailbox) (haccepted : q.accepted = p.accepted)
      (hdraft : ∀ d, q.draft = some d → d.tally = .nothing) : Reported q := by
    refine ⟨hqueued, fun hs => ?_, fun hc => ?_, ?_, fun d n hd hn => ?_⟩
    · rw [hlatest] at hs
      rcases hphase with hsame | ⟨hcreated, _⟩
      · exact hsame.trans (h.stopped hs)
      · cases hcreated.symm.trans (h.stopped hs)
    · rcases hphase with hsame | ⟨_, hrunning⟩
      · rw [hcompleted, hfailed, hpending]
        exact h.unstarted (hsame.symm.trans hc)
      · cases hrunning.symm.trans hc
    · rw [hlatest, haccepted]
      exact h.covered
    · rw [hdraft d hd] at hn
      cases hn
  cases hm with
  | number | startLate | startFails | drain | collect | markRunning | markLate | retire | depart
  | begin | beginFails | finishFails | shutAgain | yield | leave =>
    exact carry h.queued rfl rfl rfl rfl id (Nat.le_refl _)
  | enqueue =>
    refine carry ?_ rfl rfl rfl rfl id ?_
    · simp [Pool.enqueue]
    · simp [Pool.enqueue, accepted]
  | cancel | shut => exact carry rfl rfl rfl rfl rfl id (hcancelled _)
  | take => exact carry rfl rfl rfl rfl rfl id (Nat.le_refl _)
  | run | abandon =>
    exact carry h.queued rfl rfl rfl rfl id (Nat.le_of_eq (accepted_settle ..).symm)
  | concludeSame | survey => exact carry h.queued rfl rfl rfl rfl (fun _ => rfl) (Nat.le_refl _)
  | start hphase =>
    refine taken h.queued rfl (.inr ⟨hphase, rfl⟩) rfl rfl rfl rfl fun d hd => ?_
    cases hd
    rfl
  | look _ hresize =>
    cases hresize <;>
      · refine taken h.queued rfl (.inl rfl) rfl rfl rfl rfl fun d hd => ?_
        cases hd
        rfl
  | lookIdle =>
    refine taken h.queued rfl (.inl rfl) rfl rfl rfl rfl fun d hd => ?_
    cases hd
    rfl
  | conclude =>
    refine ⟨h.queued, fun _ => rfl, (fun hc => by cases hc), ?_, fun d n hd => by cases hd⟩
    show p.queued ≤ p.accepted
    rw [h.queued]
    exact hcovered
  | readQueued =>
    refine ⟨h.queued, h.stopped, h.unstarted, h.covered, fun d n hd hn => ?_⟩
    cases hd
    cases hn
    show p.queued ≤ p.accepted
    rw [h.queued]
    exact hcovered
  | readCompleted hdraft htally =>
    refine ⟨h.queued, h.stopped, h.unstarted, h.covered, fun d n hd hn => ?_⟩
    cases hd
    cases hn
    exact h.drafted _ _ hdraft (by rw [htally]; rfl)
  | readFailed hdraft htally =>
    refine ⟨h.queued, Option.some.inj, h.unstarted, ?_, fun d n hd => by cases hd⟩
    exact h.drafted _ _ hdraft (by rw [htally]; rfl)
  | markUnstarted _ hfree | leaveLast _ _ _ hfree =>
    refine ⟨h.queued, fun _ => rfl, (fun hc => by cases hc), h.covered, fun d n hd _ => ?_⟩
    cases hfree.symm.trans hd
  | finish hat | count hat | countFailing hat | countFailed hat =>
    exact h.counts (hstarted _ _ hat) h.queued rfl rfl rfl rfl

end Reported

theorem reported_of_steps {config : Config} {now : Int} {es : List (Event α)} {p : Pool α}
    (hmin : 1 ≤ config.minWorkers) (hmax : config.minWorkers ≤ config.maxWorkers)
    (h : (create config now).steps es = some p) : Reported p := by
  induction h using steps_induction with
  | nil => exact ⟨rfl, nofun, fun _ => ⟨rfl, rfl, rfl⟩, Nat.le_refl 0, nofun⟩
  | snoc es p e q hrun hstep ih =>
    have hadd := (tracked_of_steps hrun).departed_add
    obtain ⟨_, _, _, hstaffed, _⟩ := staffed_of_steps hmin hmax hrun
    exact ih.move (by omega) (fun id t hat => hstaffed.started hat) (moves_of_step hstep)

/-! ## Samples that a snapshot waits for

A finished job leaves a sample in the mailbox, and only a look of the monitor takes it out, after
which the monitor reads the length of the queue. So once all jobs are finished, a snapshot that
shows one waiting is out of date as long as a sample is pending, and a newer one follows when none
is. -/

/-- If all that was accepted is finished, no sample is pending and the monitor is not in the middle
of a look, then no snapshot shows a job waiting, neither the latest nor the one that is put
together. -/
structure Shown (done : Nat) (p : Pool α) : Prop where
  room : 1 ≤ p.mailbox.capacity
  latest : done = p.accepted → p.mailbox.pending = [] → p.looking = none → p.draft = none →
    p.latest.queued = 0
  drafted : done = p.accepted → p.mailbox.pending = [] → p.looking = none →
    ∀ d n, p.draft = some d → d.tally.queued? = some n → n = 0

namespace Shown

variable {done : Nat} {p q : Pool α}

theorem carry (h : Shown done p) (hmailbox : q.mailbox = p.mailbox)
    (haccepted : q.accepted = p.accepted) (hlooking : q.looking = p.looking)
    (hlatest : q.latest = p.latest) (hdraft : q.draft = p.draft) :
    Shown done q := by
  refine ⟨by rw [hmailbox]; exact h.room, ?_, ?_⟩
  · rw [hmailbox, haccepted, hlooking, hlatest, hdraft]
    exact h.latest
  · rw [hmailbox, haccepted, hlooking, hdraft]
    exact h.drafted

/-- A step keeps `Shown`, with the number of finished jobs moved on by what it finishes. A snapshot
that is drawn after the last job was finished reads an empty queue. -/
theorem move (h : Shown done p) (hqueued : p.queued = p.queue.length)
    (hall : done = p.accepted → p.queue = []) (hle : done ≤ p.accepted) {e : Event α}
    (hm : Moves p e q) :
    Shown (done + (p.finishedBy e).toList.length) q := by
  have hempty (hdone : done = p.accepted) : p.queued = 0 := by rw [hqueued, hall hdone]; rfl
  -- the lock is taken after the monitor has looked, and nothing is read yet
  have taken (hmailbox : q.mailbox = p.mailbox)
      (hdraft : ∃ d, q.draft = some d ∧ d.tally = .nothing) :
      Shown done q := by
    obtain ⟨d, hd, htally⟩ := hdraft
    refine ⟨by rw [hmailbox]; exact h.room, fun _ _ _ hnone => ?_, fun _ _ _ d' n hd' hn => ?_⟩
    · cases hnone.symm.trans hd
    · cases hd.symm.trans hd'
      rw [htally] at hn
      cases hn
  cases hm with
  | number | startLate | startFails | drain | collect | markRunning | markLate | retire | depart
  | take | begin | beginFails | finishFails | count | countFailing | countFailed | shutAgain | yield
  | leave =>
    exact h.carry rfl rfl rfl rfl rfl
  | cancel | shut => exact h.carry rfl (accepted_settleAll ..) rfl rfl rfl
  | run | abandon => exact h.carry rfl (accepted_settle ..) rfl rfl rfl
  | @enqueue index body =>
    -- the new job is not finished
    have hmore : (p.enqueue index body).accepted = p.accepted + 1 := by
      simp [Pool.enqueue, accepted]
    refine ⟨h.room, fun hdone => ?_, fun hdone => ?_⟩
    · rw [hmore] at hdone
      simp only [finishedBy, Option.toList_none, List.length_nil] at hdone
      omega
    · rw [hmore] at hdone
      simp only [finishedBy, Option.toList_none, List.length_nil] at hdone
      omega
  | start => exact taken rfl ⟨_, rfl, rfl⟩
  | look _ hresize => cases hresize <;> exact taken rfl ⟨_, rfl, rfl⟩
  | lookIdle => exact taken rfl ⟨_, rfl, rfl⟩
  | survey =>
    refine ⟨h.room, fun _ _ hnone => ?_, fun _ _ hnone => ?_⟩
    · cases hnone
    · cases hnone
  | markUnstarted _ hfree | leaveLast _ _ _ hfree =>
    refine ⟨h.room, h.latest, fun _ _ _ d n hd => ?_⟩
    cases hfree.symm.trans hd
  | concludeSame _ _ _ hnone =>
    exact ⟨h.room, fun hdone _ => h.latest hdone hnone, fun hdone _ => h.drafted hdone hnone⟩
  | conclude => exact ⟨h.room, fun hdone _ _ _ => hempty hdone, fun _ _ _ d n hd => by cases hd⟩
  | readQueued hdraft =>
    refine ⟨h.room, fun _ _ _ hfree => (by cases hfree), fun hdone _ _ d n hd hn => ?_⟩
    cases hd
    cases hn
    exact hempty hdone
  | readCompleted hdraft htally =>
    refine ⟨h.room, fun _ _ _ hfree => (by cases hfree), fun hdone hnone hidle d n hd hn => ?_⟩
    cases hd
    cases hn
    exact h.drafted hdone hnone hidle _ _ hdraft (by rw [htally]; rfl)
  | readFailed hdraft htally =>
    refine ⟨h.room, fun hdone hnone hidle _ => ?_, fun _ _ _ d n hd => by cases hd⟩
    exact h.drafted hdone hnone hidle _ _ hdraft (by rw [htally]; rfl)
  | @finish id job watch cpu t hat =>
    -- the sample of this job is pending now, or others that leave no room for it
    have hroom := h.room
    have hpending : (p.mailbox.push (watch.stop p.active t cpu)).pending ≠ [] := by
      unfold Mailbox.push
      split
      · next hfull =>
        intro hnil
        simp only [Mailbox.full, decide_eq_true_eq] at hfull
        rw [show p.mailbox.pending = [] from hnil, List.length_nil] at hfull
        omega
      · simp
    refine ⟨?_, fun _ hnone => absurd hnone hpending, fun _ hnone => absurd hnone hpending⟩
    show 1 ≤ (p.mailbox.push _).capacity
    unfold Mailbox.push
    split <;> exact hroom

end Shown

theorem shown_of_steps {config : Config} {now : Int} {es : List (Event α)} {p : Pool α}
    (hmin : 1 ≤ config.minWorkers) (hmax : config.minWorkers ≤ config.maxWorkers)
    (hroom : 1 ≤ config.mailboxCapacity) (h : (create config now).steps es = some p) :
    Shown ((create config now).finished es).length p := by
  induction h using steps_induction with
  | nil => exact ⟨hroom, fun _ _ _ _ => rfl, fun _ _ _ => nofun⟩
  | snoc es p e q hrun hstep ih =>
    rw [finished_snoc hrun hstep, List.length_append]
    have hadd := (tracked_of_steps hrun).departed_add
    have hle := (finished_of_steps hrun).length_le
    refine ih.move (reported_of_steps hmin hmax hrun).queued (fun hdone => ?_) (by omega)
      (moves_of_step hstep)
    exact List.eq_nil_of_length_eq_zero (by omega)

/-! ## The end of a call -/

/-- The last step of a call leaves the snapshot as it is: the pool was never started, or a snapshot
says already that it is stopped and has all its counts, and no sample is pending. -/
def Keeps (b : Pool α) : Prop :=
  b.phase = .created ∨ b.latest.phase = some .stopped ∧ b.latest.completed = b.completed ∧
    b.latest.failed = b.failed ∧ b.mailbox.pending = []

/-- What a pool is like after a call that waits: nobody works any more, and the latest
snapshot has the counts of the pool. Either nothing was ever finished, or the monitor has
taken up all samples. -/
structure Concluded (q : Pool α) : Prop where
  phase : q.phase = .stopped
  live : q.live = 0
  latest : q.latest.phase = some .stopped
  completed : q.latest.completed = q.completed
  failed : q.latest.failed = q.failed
  settled : q.completed = 0 ∨ q.mailbox.pending = [] ∧ Quiet q

/-- A pool that was never started is `Concluded` by `mark`, with the counts that it had: none. -/
theorem concluded_mark {b : Pool α} (hreported : Reported b) (hcounted : Counted b)
    (hlive : b.live = 0) (hphase : b.phase = .created) :
    Concluded b.mark ∧ b.mark.latest.active = b.latest.active ∧
    b.mark.latest.queued = b.latest.queued := by
  obtain ⟨hzero, hnone, _⟩ := hreported.unstarted hphase
  have hcompleted := hcounted.completedBehind
  have hfailed := hcounted.failedBehind
  have hmark : b.mark = { b with
      phase := .stopped
      latest := { b.latest with phase := some .stopped, seq := b.latest.seq + 1 } } := by
    rw [Pool.mark, hphase]
  rw [hmark]
  refine ⟨⟨rfl, hlive, rfl, ?_, ?_, .inl hzero⟩, rfl, rfl⟩
  · show b.latest.completed = b.completed
    omega
  · show b.latest.failed = b.failed
    omega

/-- The last step of a call that waits leaves the right counts, whether it makes a new snapshot or
not. It shows no workers if it is a new one, and the jobs that are in the queue. -/
theorem Reported.conclude {l q : Pool α} (h : Reported l) (hlive : l.live = 0)
    (hphase : l.phase ≠ .created) {now : Int} (hm : Moves l (.conclude now) q) :
    Concluded q ∧ (q.latest.active = 0 ∧ q.latest.queued = 0 ↔
      (l.Keeps → l.latest.active = 0 ∧ l.latest.queued = 0) ∧ (¬l.Keeps → l.queue = [])) := by
  cases hm with
  | concludeSame hstopped hcompleted hfailed hempty hdone hfree =>
    have hkeeps : l.Keeps := .inr ⟨hstopped, hcompleted, hfailed, hempty⟩
    refine ⟨⟨h.stopped hstopped, hlive, hstopped, hcompleted, hfailed, .inr ⟨rfl, hdone, hfree⟩⟩,
      ?_⟩
    exact ⟨fun hzero => ⟨fun _ => hzero, fun hnot => absurd hkeeps hnot⟩, fun hzero =>
      hzero.1 hkeeps⟩
  | conclude hnew hdone =>
    have hnot : ¬l.Keeps := by
      rintro (hcreated | hkept)
      · exact hphase hcreated
      · exact hnew hkept
    refine ⟨⟨rfl, hlive, rfl, rfl, rfl, .inr ⟨rfl, hdone, rfl⟩⟩, ?_⟩
    show (0 : Int) = 0 ∧ l.queued = 0 ↔ _
    rw [h.queued, List.length_eq_zero_iff]
    exact ⟨fun hzero => ⟨fun hkeeps => absurd hkeeps hnot, fun _ => hzero.2⟩, fun hzero =>
      ⟨rfl, hzero.2 hnot⟩⟩

section

variable {config : Config} {now : Int} {es₀ es : List (Event α)} {p q : Pool α}
  {launches : Nat → Bool} {monitor : Bool} (hmin : 1 ≤ config.minWorkers)
  (hmax : config.minWorkers ≤ config.maxWorkers)

include hmin hmax

/-- How a call that waits ends (`Concluded`), and what its last step does to the snapshot. -/
theorem Shutdown.concluded (hrun : (create config now).steps es₀ = some p)
    (hcall : Shutdown true launches monitor p es q none) :
    Concluded q ∧ ∃ fs e b, es = fs ++ [e] ∧ p.steps fs = some b ∧ b.step e = some q ∧
      (q.latest.active = 0 ∧ q.latest.queued = 0 ↔
        (b.Keeps → b.latest.active = 0 ∧ b.latest.queued = 0) ∧ (¬b.Keeps → b.queue = [])) := by
  cases hcall with
  | @unstarted es fs c b hopening hclosed hphase hfree =>
    have hb : p.steps (es ++ .close true :: fs) = some b :=
      steps_trans hopening.steps (steps_cons rfl hclosed.run)
    have hall := steps_trans hrun hb
    have hlive : b.live = 0 :=
      (roster_of_steps hall).live_of_nobody (vacant_of_created hmin hmax hall hphase).workers
    obtain ⟨hconcluded, hactive, hqueued⟩ :=
      concluded_mark (reported_of_steps hmin hmax hall) (counted_of_steps hall) hlive hphase
    refine ⟨hconcluded, _, .mark, b, rfl, hb, step_mark hfree, ?_⟩
    rw [hactive, hqueued]
    have hkeeps : b.Keeps := .inl hphase
    exact ⟨fun hzero => ⟨fun _ => hzero, fun hnot => absurd hkeeps hnot⟩, fun hzero =>
      hzero.1 hkeeps⟩
  | hasty hwait => cases hwait
  | @waited t es fs gs hs c b d l _ hopening hclosed hphase hfree hexits hlive hquiet hcollected
      hend =>
    have hl := hopening.steps_collected hclosed hfree hexits hlive hquiet hcollected
    have hall := steps_trans hrun hl
    -- once the workers are forgotten, no other comes, as the pool does not run any more
    have hafter : b.mark.phase.rank ≤ d.phase.rank := rank_of_steps hexits.run
    have hpast : 2 ≤ b.mark.phase.rank := rank_mark hphase
    have hvacant : Vacant d.collect := ⟨rfl, fun hrunning => by
      rw [show d.phase = .running from hrunning] at hafter
      exact absurd (Nat.le_trans hpast hafter) (by decide)⟩
    have huntouched := hvacant.meanwhile hcollected
    have hgone : l.live = 0 := (roster_of_steps hall).live_of_nobody huntouched.workers
    have hstarted : l.phase ≠ .created := by
      intro hcreated
      rw [show d.phase = .created from huntouched.phase.symm.trans hcreated] at hafter
      exact absurd (Nat.le_trans hpast hafter) (by decide)
    obtain ⟨hconcluded, hshown⟩ := (reported_of_steps hmin hmax hall).conclude hgone hstarted
      (moves_of_conclude t hend.looking hend.draft)
    exact ⟨hconcluded, _, .conclude t, l, rfl, hl, step_conclude hend t, hshown⟩

/-- **The snapshot after a shutdown that waits.** Whatever happened before, once the call returns
the pool is stopped, and the latest snapshot says so; it counts the jobs that were ever finished,
each of them once, and those of them that failed. It shows no workers and no waiting jobs exactly if
the last step `e` of the call, taken in state `b`, keeps a snapshot that shows none or makes a new
one of an empty queue; and if every task that was accepted was finished, it shows none waiting in
any case. -/
theorem last_snapshot (hroom : 1 ≤ config.mailboxCapacity)
    (hrun : (create config now).steps es₀ = some p)
    (hcall : Shutdown true launches monitor p es q none) :
    q.phase = .stopped ∧ q.latest.phase = some .stopped ∧
      q.latest.completed = ((create config now).finished (es₀ ++ es)).length ∧
      q.latest.failed = ((create config now).finished (es₀ ++ es)).countP Job.fails ∧
      (((create config now).finished (es₀ ++ es)).map Job.ticket).Nodup ∧
      (∃ fs e b, es = fs ++ [e] ∧ p.steps fs = some b ∧ b.step e = some q ∧
        (q.latest.active = 0 ∧ q.latest.queued = 0 ↔
          (b.Keeps → b.latest.active = 0 ∧ b.latest.queued = 0) ∧ (¬b.Keeps → b.queue = []))) ∧
      (((create config now).finished (es₀ ++ es)).length = q.accepted → q.latest.queued = 0) := by
  obtain ⟨hconcluded, hlast⟩ := hcall.concluded hmin hmax hrun
  have hend := steps_trans hrun hcall.steps
  have hdone := finished_of_steps hend
  obtain ⟨hcompleted, hfailed⟩ := hdone.of_exited (roster_of_steps hend) hconcluded.live
  refine ⟨hconcluded.phase, hconcluded.latest, hconcluded.completed.trans hcompleted,
    hconcluded.failed.trans hfailed, hdone.distinct, hlast, fun hall => ?_⟩
  rcases hconcluded.settled with hzero | ⟨hempty, hquiet⟩
  · have hcovered := (reported_of_steps hmin hmax hend).covered
    omega
  · exact (shown_of_steps hmin hmax hroom hend).latest hall hempty hquiet.looking hquiet.draft

end

theorem last_snapshot_waiting :
    ∃ q, (create { minWorkers := 1, maxWorkers := 1 } 0).steps [.enqueue 0 (.ok 7)] = some waiting ∧
      Shutdown true (fun _ => true) true waiting drainWaiting q none ∧ q.phase = .stopped ∧
      q.latest.completed = 1 ∧ q.latest.failed = 0 ∧ q.latest.queued = 0 := by
  obtain ⟨q, hcall⟩ := shutdown_waiting
  have hrun := staged_waiting.steps
  obtain ⟨hphase, _, hcompleted, hfailed, _, _, hqueued⟩ :=
    last_snapshot (by decide) (by decide) (by decide) hrun hcall
  have haccepted : q.accepted = 1 := (tracked_of_steps (steps_trans hrun hcall.steps)).accepted
  exact ⟨q, hrun, hcall, hphase, hcompleted, hfailed, hqueued haccepted.symm⟩

/-- The monitor looks while one job runs and another waits; then the worker cannot stop its
stopwatch, and both the pool and the waiting job are lost. -/
def failureAfterLook : List (Event Nat) :=
  [.start (fun _ => true) true 0, .read, .read, .read, .enqueue 0 (.ok 7), .work 0 .claim,
    .work 0 (.begin (.ok none) 0), .enqueue 1 (.ok 8), .survey 0, .look (fun _ => true), .read,
    .read, .read, .work 0 .run, .work 0 (.finish (.error .noWorker) 0), .work 0 .shut,
    .work 0 .yield, .work 0 .abandon, .work 0 (.leave 0)]

/-- The last worker notes that the pool is stopped, no job was finished since the look, and so the
call keeps a snapshot that still shows the job waiting. -/
theorem last_snapshot_shows_lost_job :
    ∃ p es q, (create { minWorkers := 1, maxWorkers := 1 } 0).steps failureAfterLook = some p ∧
      Shutdown true (fun _ => true) true p es q none ∧ q.queue = [] ∧ q.latest.queued = 1 := by
  have call {p : Pool Nat} (hphase : p.phase = .stopped) (hlive : p.live = 0) (hquiet : Quiet p) :
      Shutdown true (fun _ => true) true p [.close true, .mark, .collect, .conclude 1]
        ((p.close true).mark.collect.conclude 1) none := by
    obtain ⟨_, _, _, hmark⟩ := mark_eq (p.close true)
    have hmarked : Quiet (p.close true).mark := by
      rw [hmark]
      exact ⟨hquiet.looking, hquiet.draft⟩
    refine .waited 1 rfl (.skip (by simp [startsFirst, hphase]) (.refl p)) (.refl _) ?_ hquiet.draft
      (.refl _)
      ?_ hmarked (.refl _) ⟨hmarked.looking, hmarked.draft⟩
    · show p.phase ≠ .created
      simp [hphase]
    · rw [hmark]
      exact hlive
  exact ⟨_, _, _, rfl, call rfl rfl ⟨rfl, rfl⟩, rfl, rfl⟩

end Headroom.Pool
