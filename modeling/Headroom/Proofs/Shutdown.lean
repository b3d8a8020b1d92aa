import Headroom.Proofs.Closing
import Headroom.Simulation.Call

/-!
# Calls of shutdown

A shutdown is a call of several steps, and the pool does not stand still between them: workers work,
the monitor looks, and other callers submit tasks. `Shutdown` is the relation between the state in
which a call begins, all that happens until it ends, the state then, and the fault that it ends
with, if it does.

* **`Vacant`**: as long as a pool has no workers and is not started, only its queue can grow.
* **`queue_eq_nil_of_waited`**: a call that waits for the workers of a started pool leaves no job in
  the queue.
* **`Strands`**, **`GivesUp`**: the calls that leave jobs without a worker, and those that leave a
  running pool open.
* **`shutdown_closes_iff`**: there are no other calls that do not close the pool.
* **`shutdown_of_simulation`**: what `Simulation.shutdown` computes is such a call.
-/

namespace Headroom.Pool

variable {α : Type}

/-! ## The call -/

/-- What may go on beside a call: submissions of others, looks of the monitor, and the work. Other
calls of `start` and of shutdown are no part of it. -/
def Event.Aside : Event α → Prop
  | .number | .enqueue .. | .survey _ | .look _ | .read | .work .. => True
  | _ => False

/-- A run of what goes on beside a call: every event of it is `Aside`. -/
structure Meanwhile (p : Pool α) (es : List (Event α)) (q : Pool α) : Prop where
  run : p.steps es = some q
  aside : ∀ e ∈ es, e.Aside

theorem Meanwhile.refl (p : Pool α) : Meanwhile p [] p := ⟨rfl, by simp⟩

theorem Meanwhile.trans {p m q : Pool α} {es fs : List (Event α)} (h : Meanwhile p es m)
    (h' : Meanwhile m fs q) : Meanwhile p (es ++ fs) q := by
  refine ⟨steps_trans h.run h'.run, fun e he => ?_⟩
  rcases List.mem_append.mp he with he | he
  · exact h.aside e he
  · exact h'.aside e he

/-- What a pool does without any caller: the monitor looks, and workers work. -/
def Event.Inner : Event α → Prop
  | .survey _ | .look _ | .read | .work .. => True
  | _ => False

/-- A run of a pool that is left alone, without submissions of others. -/
structure Alone (p : Pool α) (es : List (Event α)) (q : Pool α) : Prop where
  run : p.steps es = some q
  inner : ∀ e ∈ es, e.Inner

theorem Alone.refl (p : Pool α) : Alone p [] p := ⟨rfl, by simp⟩

theorem Alone.trans {p m q : Pool α} {es fs : List (Event α)} (h : Alone p es m)
    (h' : Alone m fs q) :
    Alone p (es ++ fs) q :=
  ⟨steps_trans h.run h'.run, List.forall_mem_append.mpr ⟨h.inner, h'.inner⟩⟩

theorem Alone.meanwhile {p q : Pool α} {es : List (Event α)} (h : Alone p es q) :
    Meanwhile p es q := by
  refine ⟨h.run, fun e he => ?_⟩
  have hinner := h.inner e he
  cases e <;> trivial

/-- A shutdown up to the moment at which it closes the queue. It looks whether the pool has to be
started first, and starts it. Between its look and the start, and again before it closes the queue,
others may go on. -/
inductive Opening (wait : Bool) (launches : Nat → Bool) (monitor : Bool) (p : Pool α) :
    List (Event α) → Pool α → Prop
  | skip {es : List (Event α)} {c : Pool α} (hfirst : p.startsFirst wait = false)
      (hthen : Meanwhile p es c) : Opening wait launches monitor p es c
  | start {es fs : List (Event α)} {m s c : Pool α} {now : Int} (hfirst : p.startsFirst wait = true)
      (hbefore : Meanwhile p es m) (hfree : m.draft = none)
      (hstart : m.start launches monitor now = (s, none)) (hthen : Meanwhile s fs c) :
      Opening wait launches monitor p (es ++ .start launches monitor now :: fs) c

/-- A call of shutdown, from its first look to its end, with what happens in the pool meanwhile and
the fault that the caller gets, if any. It begins with an `Opening`, and its last steps depend on
`wait`. -/
inductive Shutdown (wait : Bool) (launches : Nat → Bool) (monitor : Bool) (p : Pool α) :
    List (Event α) → Pool α → Option Fault → Prop
  /-- The pool has to be started, and its start ends with a fault; the pool is seen at some later
  time. -/
  | refused {es fs : List (Event α)} {m s q : Pool α} {now : Int} {f : Fault}
      (hfirst : p.startsFirst wait = true) (hbefore : Meanwhile p es m) (hfree : m.draft = none)
      (hstart : m.start launches monitor now = (s, some f)) (hthen : Meanwhile s fs q) :
      Shutdown wait launches monitor p (es ++ .start launches monitor now :: fs) q (some f)
  /-- The pool was never started, and nothing more is to be done. -/
  | unstarted {es fs : List (Event α)} {c b : Pool α}
      (hopening : Opening wait launches monitor p es c) (hclosed : Meanwhile (c.close wait) fs b)
      (hphase : b.phase = .created) (hfree : b.draft = none) :
      Shutdown wait launches monitor p ((es ++ .close wait :: fs) ++ [.mark]) b.mark none
  /-- The caller does not wait; the pool is seen at some later time. -/
  | hasty {es fs gs : List (Event α)} {c b q : Pool α} (hwait : wait = false)
      (hopening : Opening wait launches monitor p es c) (hclosed : Meanwhile (c.close wait) fs b)
      (hphase : b.phase ≠ .created) (hfree : b.draft = none) (hthen : Meanwhile b.mark gs q) :
      Shutdown wait launches monitor p ((es ++ .close wait :: fs) ++ .mark :: gs) q none
  /-- The caller waits until the monitor has ended and all workers have exited. -/
  | waited (now : Int) {es fs gs hs : List (Event α)} {c b d l : Pool α} (hwait : wait = true)
      (hopening : Opening wait launches monitor p es c) (hclosed : Meanwhile (c.close wait) fs b)
      (hphase : b.phase ≠ .created) (hfree : b.draft = none) (hexits : Meanwhile b.mark gs d)
      (hlive : d.live = 0) (hquiet : Quiet d) (hcollected : Meanwhile d.collect hs l)
      (hend : Quiet l) :
      Shutdown wait launches monitor p
        (((es ++ .close wait :: fs) ++ .mark :: gs) ++ .collect :: hs ++ [.conclude now])
        (l.conclude now) none

section

variable {wait : Bool} {launches : Nat → Bool} {monitor : Bool} {p q c b d l : Pool α}
  {es fs gs hs : List (Event α)}

theorem Opening.steps (h : Opening wait launches monitor p es c) : p.steps es = some c := by
  cases h with
  | skip _ hthen => exact hthen.run
  | start _ hbefore hfree hstart hthen =>
    refine steps_trans hbefore.run (steps_cons (step_start hfree launches monitor _) ?_)
    rw [hstart]
    exact hthen.run

/-- A call that does not wait, as one run: its `Opening`, the closing, and the mark. -/
theorem Opening.steps_marked (hopening : Opening wait launches monitor p es c)
    (hclosed : Meanwhile (c.close wait) fs b) (hfree : b.draft = none)
    (hthen : b.mark.steps gs = some q) :
    p.steps ((es ++ .close wait :: fs) ++ .mark :: gs) = some q :=
  steps_trans (steps_trans hopening.steps (steps_cons rfl hclosed.run))
    (steps_cons (step_mark hfree) hthen)

/-- A call that waits, as one run. After the mark it waits for the workers to exit, joins them and
concludes. -/
theorem Opening.steps_collected (hopening : Opening wait launches monitor p es c)
    (hclosed : Meanwhile (c.close wait) fs b) (hfree : b.draft = none)
    (hexits : Meanwhile b.mark gs d) (hlive : d.live = 0) (hquiet : Quiet d)
    (hcollected : Meanwhile d.collect hs l) :
    p.steps (((es ++ .close wait :: fs) ++ .mark :: gs) ++ .collect :: hs) = some l :=
  steps_trans (hopening.steps_marked hclosed hfree hexits.run)
    (steps_cons (step_collect hlive hquiet) hcollected.run)

theorem Shutdown.steps {outcome : Option Fault}
    (h : Shutdown wait launches monitor p es q outcome) :
    p.steps es = some q := by
  cases h with
  | refused _ hbefore hfree hstart hthen =>
    refine steps_trans hbefore.run (steps_cons (step_start hfree launches monitor _) ?_)
    rw [hstart]
    exact hthen.run
  | unstarted hopening hclosed _ hfree => exact hopening.steps_marked hclosed hfree (steps_nil _)
  | hasty _ hopening hclosed _ hfree hthen => exact hopening.steps_marked hclosed hfree hthen.run
  | waited t _ hopening hclosed _ hfree hexits hlive hquiet hcollected hend =>
    refine steps_trans (hopening.steps_collected hclosed hfree hexits hlive hquiet hcollected) ?_
    rw [steps_singleton]
    exact step_conclude hend t

end

/-! ## What stays -/

/-- No run leads back to a pool that was not started, since phases have a `rank` that only grows. -/
theorem created_of_steps {p q : Pool α} {es : List (Event α)} (h : p.steps es = some q)
    (hq : q.phase = .created) :
    p.phase = .created := by
  have hle := rank_of_steps h
  rw [hq] at hle
  exact Phase.eq_created (Nat.le_zero.mp hle)

/-- A queue that is closed stays closed, and no job enters it. An empty one therefore
stays empty. -/
theorem Moves.closed {p q : Pool α} {e : Event α} (hm : Moves p e q) (hsealed : Sealed p)
    (hclosing : p.closing = true) :
    q.closing = true ∧ e.submission? = none ∧ (p.queue = [] → q.queue = []) := by
  cases hm with
  | enqueue hopen =>
    rw [hsealed.accepting, hclosing] at hopen
    cases hopen
  | drain => exact ⟨rfl, rfl, id⟩
  | cancel | shut => exact ⟨rfl, rfl, fun _ => rfl⟩
  | look _ hresize => cases hresize <;> exact ⟨hclosing, rfl, id⟩
  | take _ _ hqueue => exact ⟨hclosing, rfl, fun hnil => nomatch hqueue.symm.trans hnil⟩
  | _ => exact ⟨hclosing, rfl, id⟩

theorem Sealed.closed_of_steps {p q : Pool α} (h : Sealed p) (hclosing : p.closing = true)
    {es : List (Event α)} (hrun : p.steps es = some q) :
    q.closing = true ∧ submissions es = [] ∧ (p.queue = [] → q.queue = []) := by
  induction hrun using steps_induction with
  | nil => exact ⟨hclosing, rfl, id⟩
  | snoc es m e q hm hstep ih =>
    obtain ⟨hclosed, hnone, hkept⟩ := ih
    obtain ⟨hclosed', hnone', hkept'⟩ := (moves_of_step hstep).closed (h.of_steps hm) hclosed
    refine ⟨hclosed', ?_, fun hnil => hkept' (hkept hnil)⟩
    rw [submissions_snoc, hnone, hnone']
    rfl

/-! ## A pool without workers -/

/-- A pool that is not running and has no workers. Nothing can happen to it from within. -/
structure Vacant (p : Pool α) : Prop where
  workers : p.workers = []
  phase : p.phase ≠ .running

/-- Such a pool, after nothing has happened to it but that `new` jobs have entered the queue. -/
structure Untouched (p : Pool α) (new : Nat) (q : Pool α) : Prop where
  workers : q.workers = []
  phase : q.phase = p.phase
  nextWorker : q.nextWorker = p.nextWorker
  accepting : q.accepting = p.accepting
  queue : q.queue.length = p.queue.length + new

theorem Vacant.move {p q : Pool α} (h : Vacant p) {e : Event α} (he : e.Aside) (hm : Moves p e q) :
    Untouched p e.submission?.toList.length q := by
  cases hm with
  | number | survey | readQueued | readCompleted | readFailed =>
    exact ⟨h.workers, rfl, rfl, rfl, rfl⟩
  | enqueue => exact ⟨h.workers, rfl, rfl, rfl, List.length_append⟩
  | look hphase => exact absurd hphase h.phase
  | lookIdle =>
    refine ⟨?_, rfl, rfl, rfl, rfl⟩
    show p.workers.filter _ = []
    rw [h.workers, List.filter_nil]
  | retire hat | depart hat | take hat | begin hat | beginFails hat | run hat | finish hat
  | finishFails hat | count hat | countFailing hat | countFailed hat | shut hat | shutAgain hat
  | yield hat | abandon hat | leave hat | leaveLast hat => exact (Roster.nobody h.workers hat).elim
  | startLate | startFails | start | drain | cancel | markUnstarted | markRunning | markLate
  | collect | concludeSame | conclude => exact he.elim

/-- What goes on beside a call does nothing to a `Vacant` pool, except that jobs enter the queue. -/
theorem Vacant.meanwhile {p q : Pool α} (h : Vacant p) {es : List (Event α)}
    (hthen : Meanwhile p es q) :
    Untouched p (submissions es).length q := by
  obtain ⟨hrun, haside⟩ := hthen
  induction hrun using steps_induction with
  | nil => exact ⟨h.workers, rfl, rfl, rfl, rfl⟩
  | snoc es m e q _ hstep ih =>
    obtain ⟨hworkers, hphase, hnext, haccepting, hqueue⟩ := ih fun e' he' =>
      haside e' (List.mem_append_left _ he')
    have hvacant : Vacant m := ⟨hworkers, hphase ▸ h.phase⟩
    have hlast := hvacant.move (haside e (by simp)) (moves_of_step hstep)
    refine ⟨hlast.workers, hlast.phase.trans hphase, hlast.nextWorker.trans hnext,
      hlast.accepting.trans haccepting, ?_⟩
    rw [hlast.queue, hqueue, submissions_snoc, List.length_append, Nat.add_assoc]

/-- What goes on beside a call is no part of another one, so it keeps to the order of `Orderly`. -/
theorem Meanwhile.orderly {p q : Pool α} {es : List (Event α)} (h : Meanwhile p es q) :
    Orderly p es q := by
  obtain ⟨hrun, haside⟩ := h
  induction hrun using steps_induction with
  | nil => exact .nil
  | snoc es m e q _ hstep ih =>
    refine .snoc (ih fun e' he' => haside e' (List.mem_append_left _ he')) ?_ hstep
    have he := haside e (by simp)
    cases e with
    | number | enqueue | survey | look | read | work => exact ⟨trivial, nofun⟩
    | start | close | mark | collect | conclude => exact he.elim

/-! ### Pools that nobody attends to -/

/-- A stopped pool that is `Forsaken` keeps the jobs in its queue, unless somebody cancels them. -/
theorem Forsaken.stuck {p q : Pool α} (h : Forsaken p) (hsealed : Sealed p)
    (hphase : p.phase = .stopped) {e : Event α} (he : e ≠ .close false) (hm : Moves p e q) :
    Forsaken q ∧ q.phase = .stopped ∧ q.queue = p.queue := by
  obtain ⟨hclosing, hworkers, -⟩ := h
  -- nobody works and the pool takes nothing, so only calls and the monitor can move
  cases hm with
  | number | startLate | markLate | concludeSame | survey | readQueued | readCompleted
  | readFailed =>
    exact ⟨⟨hclosing, hworkers, .inr hphase⟩, hphase, rfl⟩
  | drain => exact ⟨⟨rfl, hworkers, .inr hphase⟩, hphase, rfl⟩
  | conclude => exact ⟨⟨hclosing, hworkers, .inr rfl⟩, rfl, rfl⟩
  | collect => exact ⟨⟨hclosing, rfl, .inr hphase⟩, hphase, rfl⟩
  | lookIdle =>
    refine ⟨⟨hclosing, ?_, .inr hphase⟩, hphase, rfl⟩
    show p.workers.filter _ = []
    rw [hworkers, List.filter_nil]
  | cancel => exact absurd rfl he
  | enqueue hopen =>
    rw [hsealed.accepting, hclosing] at hopen
    cases hopen
  | startFails hother | start hother | markUnstarted hother | markRunning hother | look hother =>
    cases hother.symm.trans hphase
  | retire hat | depart hat | take hat | begin hat | beginFails hat | run hat | finish hat
  | finishFails hat | count hat | countFailing hat | countFailed hat | shut hat | shutAgain hat
  | yield hat | abandon hat | leave hat | leaveLast hat => exact (Roster.nobody hworkers hat).elim

theorem Forsaken.stuck_of_steps {p q : Pool α} (h : Forsaken p) (hsealed : Sealed p)
    (hphase : p.phase = .stopped) {es : List (Event α)} (hes : ∀ e ∈ es, e ≠ .close false)
    (hrun : p.steps es = some q) : Forsaken q ∧ q.phase = .stopped ∧ q.queue = p.queue := by
  induction hrun using steps_induction with
  | nil => exact ⟨h, hphase, rfl⟩
  | snoc es m e q hm hstep ih =>
    obtain ⟨hforsaken, hstopped, hqueue⟩ := ih fun e' he' => hes e' (List.mem_append_left _ he')
    obtain ⟨hforsaken', hstopped', hqueue'⟩ :=
      hforsaken.stuck (hsealed.of_steps hm) hstopped (hes e (by simp)) (moves_of_step hstep)
    exact ⟨hforsaken', hstopped', hqueue'.trans hqueue⟩

theorem Attended.queue_of_stopped {p : Pool α} {count : Nat} (h : Attended p) (hroster : Roster p)
    (hstaffed : Staffed count p) (hphase : p.phase = .stopped) : p.queue = [] := by
  refine h.queue_eq_nil (h.late ?_ ?_) hstaffed.retiring ?_
  · rw [hphase]; nofun
  · rw [hphase]; nofun
  · have hlive := h.ended hphase
    have hle := hroster.inLoop_le_live
    omega

/-! ### Pools that are left open -/

/-- A running pool stays open beside a call, unless a worker fails: `shut` is the only step from
within that closes it. -/
theorem Moves.stays_open {p q : Pool α} {e : Event α} (hm : Moves p e q) (he : e.Aside)
    (hsealed : Sealed p) (hphase : p.phase = .running) (hopen : p.accepting = true)
    (hfailure : q.failure = none) :
    q.phase = .running ∧ q.accepting = true := by
  cases hm with
  | look _ hresize => cases hresize <;> exact ⟨hphase, hopen⟩
  | shut => cases hfailure
  | yield hat =>
    have hfailed := hsealed.failing _ (Roster.mem_workers hat) rfl
    rw [show p.failure = none from hfailure] at hfailed
    cases hfailed
  | leaveLast _ _ hother => cases hother.symm.trans hphase
  | startLate | startFails | start | drain | cancel | markUnstarted | markRunning | markLate
  | collect | concludeSame | conclude => exact he.elim
  | _ => exact ⟨hphase, hopen⟩

/-- A failure is never forgotten, so a pool without one had none before. -/
theorem Moves.failure_none {p q : Pool α} {e : Event α} (hm : Moves p e q) (h : q.failure = none) :
    p.failure = none := by
  cases hm with
  | look _ hresize => cases hresize <;> exact h
  | shut => cases h
  | _ => exact h

theorem Meanwhile.stays_open {p q : Pool α} {es : List (Event α)} (h : Meanwhile p es q)
    (hsealed : Sealed p) (hphase : p.phase = .running) (hopen : p.accepting = true)
    (hfailure : q.failure = none) : q.phase = .running ∧ q.accepting = true := by
  obtain ⟨hrun, haside⟩ := h
  induction hrun using steps_induction with
  | nil => exact ⟨hphase, hopen⟩
  | snoc es m e q hm hstep ih =>
    have hmove := moves_of_step hstep
    obtain ⟨hphase', hopen'⟩ :=
      ih (hmove.failure_none hfailure) fun e' he' => haside e' (List.mem_append_left _ he')
    exact hmove.stays_open (haside e (by simp)) (hsealed.of_steps hm) hphase' hopen' hfailure

/-! ## How a call begins -/

theorem startsFirst_eq_true {wait : Bool} {p : Pool α} :
    p.startsFirst wait = true ↔ wait = true ∧ p.phase = .created ∧ p.queue ≠ [] := by
  simp only [startsFirst, Bool.and_eq_true, decide_eq_true_eq, Bool.not_eq_true',
    List.isEmpty_eq_false_iff]
  constructor
  · rintro ⟨⟨hphase, hwait⟩, hqueue⟩
    exact ⟨hwait, hphase, hqueue⟩
  · rintro ⟨hwait, hphase, hqueue⟩
    exact ⟨⟨hphase, hwait⟩, hqueue⟩

/-- A start that succeeds has launched a worker and the monitor, and runs the pool. -/
theorem start_eq_ok {launches : Nat → Bool} {monitor : Bool} {now : Int} {m s : Pool α}
    (hphase : m.phase = .created) (hstart : m.start launches monitor now = (s, none)) :
    m.launched launches ≠ 0 ∧ monitor = true ∧ s.phase = .running := by
  rw [start_created launches monitor now hphase] at hstart
  split at hstart
  · cases hstart
  · next hsome =>
    cases monitor with
    | false => cases hstart
    | true =>
      cases hstart
      exact ⟨fun hzero => hsome (launched_eq_zero.mp hzero), rfl, rfl⟩

/-- A start ends with a fault if no worker can be launched, which leaves all but the numbers as it
was, or if the monitor cannot, which leaves the pool running. -/
theorem start_eq_fault {launches : Nat → Bool} {monitor : Bool} {now : Int} {m s : Pool α}
    {f : Fault} (hphase : m.phase = .created)
    (hstart : m.start launches monitor now = (s, some f)) :
    (m.launched launches = 0 ∧ f = .noWorker ∧
        s = { m with nextWorker := m.nextWorker + m.config.minWorkers.toNat }) ∨
      (m.launched launches ≠ 0 ∧ monitor = false ∧ f = .noMonitor ∧
        s = (m.opened launches monitor now).sketch (m.window.estimate now) 0.0 0 now) := by
  rw [start_created launches monitor now hphase] at hstart
  split at hstart
  · next hnone =>
    cases hstart
    exact .inl ⟨launched_eq_zero.mpr hnone, rfl, rfl⟩
  · next hsome =>
    cases monitor with
    | true => cases hstart
    | false =>
      cases hstart
      exact .inr ⟨fun hzero => hsome (launched_eq_zero.mp hzero), rfl, rfl, rfl⟩

/-- `mark` changes the phase, and nothing else that a caller could still see. -/
theorem mark_eq (p : Pool α) :
    ∃ phase latest monitoring, p.mark = { p with phase, latest, monitoring } := by
  unfold mark
  split <;> exact ⟨_, _, _, rfl⟩

/-- `close` changes what is accepted and what waits, and gives results to what it drops. -/
theorem close_eq (wait : Bool) (p : Pool α) : ∃ ledger queued, p.close wait =
    { p with
      accepting := false, closing := true, ledger, queue :=
        if wait then p.queue else [], queued } := by
  cases wait with
  | true => exact ⟨_, _, rfl⟩
  | false =>
    rw [close, settleAll_eq]
    exact ⟨_, _, rfl⟩

theorem Sealed.close {p : Pool α} (h : Sealed p) (wait : Bool) :
    Sealed (p.close wait) ∧ (p.close wait).closing = true := by
  obtain ⟨ledger, queued, hclose⟩ := close_eq wait p
  exact ⟨h.move (moves_of_step (e := .close wait) rfl), by rw [hclose]⟩

/-- A call that has to drain the queue of a pool without workers, and cannot: no worker can be
launched for the jobs that wait, or jobs come only after it has looked for them, or an earlier call
has left jobs so. -/
def Strands (wait : Bool) (launches : Nat → Bool) (p : Pool α) (es : List (Event α)) : Prop :=
  wait = true ∧
    (p.phase = .created ∧
        (p.queue ≠ [] ∧ p.launched launches = 0 ∨ p.queue = [] ∧ submissions es ≠ []) ∨
      p.phase = .stopped ∧ p.queue ≠ [])

/-- A call that starts the workers, but not the monitor, and so ends before it closes the queue. It
leaves the pool open, if it was and no worker has failed until then. -/
def GivesUp (wait : Bool) (launches : Nat → Bool) (monitor : Bool) (p q : Pool α) : Prop :=
  p.startsFirst wait = true ∧ p.launched launches ≠ 0 ∧ monitor = false ∧ p.accepting = true ∧
    q.failure = none

section

variable {config : Config} {now : Int} {es₀ : List (Event α)} {p : Pool α} {wait : Bool}
  {launches : Nat → Bool} {monitor : Bool} (hmin : 1 ≤ config.minWorkers)
  (hmax : config.minWorkers ≤ config.maxWorkers)

include hmin hmax

theorem vacant_of_created (hrun : (create config now).steps es₀ = some p)
    (hphase : p.phase = .created) :
    Vacant p := by
  obtain ⟨_, _, _, hstaffed, _⟩ := staffed_of_steps hmin hmax hrun
  exact ⟨(hstaffed.unstarted hphase).1, by rw [hphase]; nofun⟩

/-- A pool that runs is `Attended`: its workers are in the loop, so that a job never waits
in vain. -/
theorem attended_of_running (hrun : (create config now).steps es₀ = some p)
    (hphase : p.phase = .running) :
    Attended p := by
  obtain ⟨_, hpos, _, hstaffed, _⟩ := staffed_of_steps hmin hmax hrun
  exact .of_running hstaffed hpos hphase

theorem untouched_of_startsFirst (launches : Nat → Bool)
    (hrun : (create config now).steps es₀ = some p) (hfirst : p.startsFirst wait = true)
    {es : List (Event α)} {m : Pool α} (hbefore : Meanwhile p es m) :
    m.phase = .created ∧ m.launched launches = p.launched launches ∧
      Untouched p (submissions es).length m := by
  obtain ⟨_, hphase, _⟩ := startsFirst_eq_true.mp hfirst
  have huntouched := (vacant_of_created hmin hmax hrun hphase).meanwhile hbefore
  refine ⟨huntouched.phase.trans hphase, ?_, huntouched⟩
  rw [launched, huntouched.nextWorker, config_of_steps hbefore.run, launched]

/-- A call that starts the pool finds jobs, launches a worker and the monitor, and so runs it. -/
theorem Opening.started {es : List (Event α)} {c : Pool α}
    (hrun : (create config now).steps es₀ = some p) (h : Opening wait launches monitor p es c) :
    p.startsFirst wait = false ∧ Meanwhile p es c ∨
      p.startsFirst wait = true ∧ p.launched launches ≠ 0 ∧ monitor = true ∧ c.phase ≠ .created ∧
        Attended c := by
  cases h with
  | skip hfirst hthen => exact .inl ⟨hfirst, hthen⟩
  | @start es fs m s c t hfirst hbefore hfree hstart hthen =>
    obtain ⟨hm, hlaunched, _⟩ := untouched_of_startsFirst hmin hmax launches hrun hfirst hbefore
    obtain ⟨hsome, hmonitor, hphase⟩ := start_eq_ok hm hstart
    have hstep := step_start hfree launches monitor t
    rw [hstart] at hstep
    have hs := steps_snoc.mpr ⟨m, steps_trans hrun hbefore.run, hstep⟩
    have hattended := (attended_of_running hmin hmax hs hphase).of_orderly hmin hmax hs
      hthen.orderly
    refine .inr ⟨hfirst, hlaunched ▸ hsome, hmonitor, fun hc => ?_, hattended⟩
    cases hphase.symm.trans (created_of_steps hthen.run hc)

/-- A pool that is not started even when the queue is closed was not to be started. Only jobs of
others have come since the first look of the call. -/
theorem Opening.unstarted {es : List (Event α)} {c : Pool α}
    (hrun : (create config now).steps es₀ = some p) (h : Opening wait launches monitor p es c)
    (hphase : c.phase = .created) :
    p.startsFirst wait = false ∧ p.phase = .created ∧ Untouched p (submissions es).length c := by
  have hcreated : p.phase = .created := created_of_steps h.steps hphase
  rcases h.started hmin hmax hrun with ⟨hfirst, hthen⟩ | ⟨_, _, _, hstarted, _⟩
  · exact ⟨hfirst, hcreated, (vacant_of_created hmin hmax hrun hcreated).meanwhile hthen⟩
  · exact absurd hphase hstarted

/-- Closing the queue and what goes on then do not start the pool. -/
theorem untouched_of_closed {fs : List (Event α)} {b c : Pool α}
    (hrun : (create config now).steps es₀ = some c) (hclosed : Meanwhile (c.close wait) fs b)
    (hphase : c.phase = .created) : Untouched (c.close wait) (submissions fs).length b := by
  obtain ⟨ledger, queued, hclose⟩ := close_eq wait c
  have hvacant := vacant_of_created hmin hmax hrun hphase
  refine Vacant.meanwhile ⟨?_, ?_⟩ hclosed
  · rw [hclose]; exact hvacant.workers
  · rw [hclose]; exact hvacant.phase

theorem started_of_closed {fs : List (Event α)} {b c : Pool α}
    (hrun : (create config now).steps es₀ = some c) (hclosed : Meanwhile (c.close wait) fs b)
    (hphase : b.phase ≠ .created) : c.phase ≠ .created := by
  intro hcreated
  obtain ⟨_, _, hclose⟩ := close_eq wait c
  have hsame := (untouched_of_closed hmin hmax hrun hclosed hcreated).phase
  rw [hclose] at hsame
  exact hphase (hsame.trans hcreated)

/-! ## How a call ends -/

/-- What is known after a call: that the pool is closed and its jobs are attended to, that it has
jobs and nobody for them (`Strands`), or that it runs and is open (`GivesUp`). -/
inductive Ending (wait : Bool) (launches : Nat → Bool) (monitor : Bool) (p : Pool α)
    (es : List (Event α)) (q : Pool α) (outcome : Option Fault) : Prop
  | closed (hstrands : ¬Strands wait launches p es) (hgives : ¬GivesUp wait launches monitor p q)
      (hclosing : q.closing = true) (hattended : q.queue ≠ [] → q.retiring < q.inLoop)
      (hempty : outcome = none → q.queue = [])
  | stranded (hstrands : Strands wait launches p es) (hgives : ¬GivesUp wait launches monitor p q)
      (hqueue : q.queue ≠ []) (hworkers : q.workers = [])
      (haccepting : q.accepting = true ↔ outcome ≠ none ∧ p.accepting = true)
  | opened (hstrands : ¬Strands wait launches p es) (hgives : GivesUp wait launches monitor p q)
      (hphase : q.phase = .running) (hopen : q.accepting = true)
        (houtcome : outcome = some .noMonitor)
      (hattended : q.queue ≠ [] → q.retiring < q.inLoop)

/-- A call whose start ends with a fault leaves the pool as open as it was, without workers or
running. -/
theorem ending_of_refused (hrun : (create config now).steps es₀ = some p)
    {es fs gs : List (Event α)} {m s q : Pool α} {t : Int} {f : Fault}
    (hfirst : p.startsFirst wait = true) (hbefore : Meanwhile p es m) (hfree : m.draft = none)
    (hstart : m.start launches monitor t = (s, some f)) (hthen : Meanwhile s fs q) :
    Ending wait launches monitor p gs q (some f) := by
  obtain ⟨hwait, hphase, hqueue⟩ := startsFirst_eq_true.mp hfirst
  obtain ⟨hm, hlaunched, huntouched⟩ :=
    untouched_of_startsFirst hmin hmax launches hrun hfirst hbefore
  have hpos := List.length_pos_iff.mpr hqueue
  have hbeforeStart := steps_trans hrun hbefore.run
  have hstep := step_start hfree launches monitor t
  rw [hstart] at hstep
  have hs := steps_snoc.mpr ⟨m, hbeforeStart, hstep⟩
  have hsealed := sealed_of_steps hs
  -- no worker was launched, or workers were but not the monitor
  rcases start_eq_fault hm hstart with ⟨hzero, rfl, hkept⟩ | ⟨hsome, hmonitor, rfl, hopened⟩
  · have hvacant : Vacant s := by
      rw [hkept]
      exact ⟨huntouched.workers, by rw [hm]; nofun⟩
    have hlater := hvacant.meanwhile hthen
    refine .stranded ⟨hwait, .inl ⟨hphase, .inl ⟨hqueue, hlaunched ▸ hzero⟩⟩⟩ ?_ ?_ hlater.workers
      ?_
    · exact fun hgives => hgives.2.1 (hlaunched ▸ hzero)
    · have hlength := hlater.queue
      have hsame : s.queue = m.queue := by rw [hkept]
      rw [hsame, huntouched.queue] at hlength
      exact List.length_pos_iff.mp (by omega)
    · have hsame : s.accepting = m.accepting := by rw [hkept]
      rw [hlater.accepting, hsame, huntouched.accepting]
      simp
  · have hrunning : s.phase = .running := by rw [hopened]; rfl
    have haccepting : s.accepting = p.accepting := by rw [hopened]; exact huntouched.accepting
    have hattended := (attended_of_running hmin hmax hs hrunning).of_orderly hmin hmax hs
      hthen.orderly
    -- there are workers now, which rules out each way of being stranded
    have hnot : ¬Strands wait launches p gs := by
      rintro ⟨_, ⟨_, ⟨_, hzero⟩ | ⟨hempty, _⟩⟩ | ⟨hstopped, _⟩⟩
      · exact hsome (hlaunched.trans hzero)
      · exact hqueue hempty
      · cases hphase.symm.trans hstopped
    by_cases hgives : GivesUp wait launches monitor p q
    · obtain ⟨hphase', hopen'⟩ :=
        hthen.stays_open hsealed hrunning (haccepting.trans hgives.2.2.2.1) hgives.2.2.2.2
      obtain ⟨_, hstays, _, hstaffed, _⟩ := staffed_of_steps hmin hmax (steps_trans hs hthen.run)
      exact .opened hnot hgives hphase' hopen' rfl (hstaffed.stays hstays hphase')
    · -- the queue was closed before, or a worker has closed it
      have hclosing : q.closing = true := by
        cases hopen : p.accepting with
        | false =>
          refine (hsealed.closed_of_steps ?_ hthen.run).1
          have := hsealed.accepting
          rw [haccepting, hopen] at this
          simpa using this.symm
        | true =>
          refine ((hsealed.of_steps hthen.run).failed ?_).1
          cases hfailure : q.failure with
          | some what => rfl
          | none => exact absurd ⟨hfirst, hlaunched ▸ hsome, hmonitor, hopen, hfailure⟩ hgives
      exact .closed hnot hgives hclosing (hattended.attended hclosing) nofun

/-- A call that finds the pool never started, and leaves it so, strands (`Strands`) the jobs that
came after its first look. -/
theorem strands_of_unstarted (hrun : (create config now).steps es₀ = some p)
    {es fs : List (Event α)} {c b : Pool α} (hopening : Opening wait launches monitor p es c)
    (hclosed : Meanwhile (c.close wait) fs b) (hphase : b.phase = .created) :
    b.workers = [] ∧
      (b.queue ≠ [] ↔ Strands wait launches p ((es ++ .close wait :: fs) ++ [.mark])) := by
  obtain ⟨ledger, queued, hclose⟩ := close_eq wait c
  have hc : c.phase = .created := by
    have := created_of_steps hclosed.run hphase
    rwa [hclose] at this
  obtain ⟨hfirst, hcreated, hbefore⟩ := hopening.unstarted hmin hmax hrun hc
  have hcrun := steps_trans hrun hopening.steps
  have hafter := untouched_of_closed hmin hmax hcrun hclosed hc
  -- the jobs in the queue are those that came before the closing; none comes after it
  obtain ⟨hsealed, hclosing⟩ := (sealed_of_steps hcrun).close wait
  have hnone : submissions fs = [] := (hsealed.closed_of_steps hclosing hclosed.run).2.1
  have hall : submissions ((es ++ .close wait :: fs) ++ [.mark]) = submissions es := by
    rw [submissions_append, submissions_append,
      show submissions (.close wait :: fs) = submissions fs from rfl, hnone]
    simp [submissions, Event.submission?]
  have hlen := hafter.queue
  rw [hnone, hclose] at hlen
  refine ⟨hafter.workers, ?_⟩
  rw [Strands, hall, ← List.length_pos_iff, hlen]
  cases wait with
  | false => simp
  | true =>
    have hempty : p.queue = [] := by
      by_contra hqueue
      rw [startsFirst_eq_true.mpr ⟨rfl, hcreated, hqueue⟩] at hfirst
      cases hfirst
    have hbefore := hbefore.queue
    rw [hempty] at hbefore
    simp [hcreated, hempty, hbefore, List.length_pos_iff]

/-- When all workers of a pool that was started and is `Attended` have exited, the queue is empty
and stays so. -/
theorem queue_eq_nil_of_waited {fs gs rest : List (Event α)} {c b d q : Pool α}
    (hrun : (create config now).steps es₀ = some c) (hattended : Attended c)
    (hstarted : c.phase ≠ .created) (hclosed : Meanwhile (c.close wait) fs b)
    (hfree : b.draft = none) (hexits : Meanwhile b.mark gs d) (hlive : d.live = 0)
    (hq : d.steps rest = some q) : q.closing = true ∧ q.queue = [] := by
  -- the run up to `d` is orderly: as the pool was started, the queue was not closed too early
  have hfirst : Event.Due c (.close wait) := by
    refine ⟨trivial, fun wait' _ => ?_⟩
    rw [← Bool.not_eq_true, startsFirst_eq_true]
    exact fun hfirst => hstarted hfirst.2.1
  obtain ⟨hsealed, hclosing⟩ := (sealed_of_steps hrun).close wait
  have hmark : Event.Due b .mark := ⟨(hsealed.closed_of_steps hclosing hclosed.run).1, nofun⟩
  have hd : Orderly c ((.close wait :: fs) ++ .mark :: gs) d :=
    (Paced.nil.cons hfirst rfl hclosed.orderly).cons hmark (step_mark hfree) hexits.orderly
  have hdrun := steps_trans hrun hd.steps
  have hstill : d.closing = true :=
    (hsealed.closed_of_steps hclosing
      (steps_trans hclosed.run (steps_cons (step_mark hfree) hexits.run))).1
  obtain ⟨_, _, _, hstaffed, _⟩ := staffed_of_steps hmin hmax hdrun
  have hloop : d.inLoop = 0 := by
    have := (roster_of_steps hdrun).inLoop_le_live
    omega
  have hempty :=
    (hattended.of_orderly hmin hmax hrun hd).queue_eq_nil hstill hstaffed.retiring hloop
  obtain ⟨hend, _, hkept⟩ := (sealed_of_steps hdrun).closed_of_steps hstill hq
  exact ⟨hend, hkept hempty⟩

/-- A call that waits for the workers of a started pool closes it for good and leaves no job in the
queue, unless an earlier call has left jobs there without a worker. -/
theorem ending_of_waited (hstaged : Staged (create config now) es₀ p)
    {es fs gs rest : List (Event α)} {c b d q : Pool α} (hwait : wait = true)
    (hopening : Opening wait launches monitor p es c) (hclosed : Meanwhile (c.close wait) fs b)
    (hphase : b.phase ≠ .created) (hfree : b.draft = none) (hexits : Meanwhile b.mark gs d)
    (hlive : d.live = 0) (hq : d.steps rest = some q) (hrest : ∀ e ∈ rest, e ≠ .close false) :
    Ending wait launches monitor p (((es ++ .close wait :: fs) ++ .mark :: gs) ++ rest) q none := by
  have hrun := hstaged.steps
  have hcrun := steps_trans hrun hopening.steps
  have hstarted := started_of_closed hmin hmax hcrun hclosed hphase
  have closes (hattended : Attended c) : q.closing = true ∧ q.queue = [] :=
    queue_eq_nil_of_waited hmin hmax hcrun hattended hstarted hclosed hfree hexits hlive hq
  rcases hopening.started hmin hmax hrun with ⟨hfirst, hthen⟩ | ⟨hfirst, hsome, hmonitor, _,
    hattended⟩
  · have hnot : ¬GivesUp wait launches monitor p q :=
      fun hgives => nomatch hfirst.symm.trans hgives.1
    -- a pool that was not started before the closing is not started by it
    have hpstarted : p.phase ≠ .created := by
      intro hcreated
      have hsame := ((vacant_of_created hmin hmax hrun hcreated).meanwhile hthen).phase
      exact hstarted (hsame.trans hcreated)
    rcases attended_or_forsaken hmin hmax hstaged with hattended | hforsaken
    · obtain ⟨hclosing, hempty⟩ := closes (hattended.of_orderly hmin hmax hrun hthen.orderly)
      refine .closed ?_ hnot hclosing (fun hne => absurd hempty hne) fun _ => hempty
      rintro ⟨_, ⟨hcreated, _⟩ | ⟨hstopped, hqueue⟩⟩
      · exact hpstarted hcreated
      · obtain ⟨_, _, _, hstaffed, _⟩ := staffed_of_steps hmin hmax hrun
        exact hqueue (hattended.queue_of_stopped (roster_of_steps hrun) hstaffed hstopped)
    · -- nobody ever comes, and the call does not cancel anything
      have hstopped : p.phase = .stopped := hforsaken.phase.resolve_left hpstarted
      have hes : ∀ e ∈ ((es ++ .close wait :: fs) ++ .mark :: gs) ++ rest, e ≠ .close false := by
        subst hwait
        -- a call that waits closes the queue with `wait`, and what goes on beside it never closes
        intro e he heq
        simp only [List.mem_append, List.mem_cons] at he
        rcases he with ((he | he | he) | he | he) | he
        · exact (heq ▸ hthen.aside e he).elim
        · cases he.symm.trans heq
        · exact (heq ▸ hclosed.aside e he).elim
        · cases he.symm.trans heq
        · exact (heq ▸ hexits.aside e he).elim
        · exact hrest e he heq
      have hall := steps_trans (hopening.steps_marked hclosed hfree hexits.run) hq
      have hsealed := sealed_of_steps hrun
      obtain ⟨hforsaken', _, hqueue⟩ := hforsaken.stuck_of_steps hsealed hstopped hes hall
      by_cases hnil : p.queue = []
      · refine .closed ?_ hnot hforsaken'.closing (fun hne => absurd (hqueue.trans hnil) hne)
          fun _ => hqueue.trans hnil
        rintro ⟨_, ⟨hcreated, _⟩ | ⟨_, hne⟩⟩
        · exact hpstarted hcreated
        · exact hne hnil
      · refine .stranded ⟨hwait, .inr ⟨hstopped, hnil⟩⟩ hnot (hqueue ▸ hnil) hforsaken'.workers ?_
        rw [(hsealed.of_steps hall).accepting, hforsaken'.closing]
        simp
  · -- the call has started the pool, so workers attend to the jobs until the queue is empty
    obtain ⟨hclosing, hempty⟩ := closes hattended
    obtain ⟨_, hcreated, hjobs⟩ := startsFirst_eq_true.mp hfirst
    refine .closed ?_ ?_ hclosing (fun hne => absurd hempty hne) fun _ => hempty
    · rintro ⟨_, ⟨_, ⟨_, hzero⟩ | ⟨hnil, _⟩⟩ | ⟨hstopped, _⟩⟩
      · exact hsome hzero
      · exact hjobs hnil
      · cases hcreated.symm.trans hstopped
    · exact fun hgives => nomatch hmonitor.symm.trans hgives.2.2.1

/-- **How a call ends.** One case for each constructor of `Shutdown`, from the lemmas above. -/
theorem Shutdown.ending (hstaged : Staged (create config now) es₀ p) {es : List (Event α)}
    {q : Pool α} {outcome : Option Fault} (hcall : Shutdown wait launches monitor p es q outcome) :
    Ending wait launches monitor p es q outcome := by
  have hrun := hstaged.steps
  have hsealed : Sealed q := sealed_of_steps (steps_trans hrun hcall.steps)
  -- once the queue is closed, it stays so and takes no job
  have closed {es fs : List (Event α)} {c q : Pool α} (hc : p.steps es = some c)
      (hq : (c.close wait).steps fs = some q) :
      q.closing = true ∧ ((c.close wait).queue = [] → q.queue = []) := by
    obtain ⟨hsealed, hclosing⟩ := (sealed_of_steps (steps_trans hrun hc)).close wait
    exact ⟨(hsealed.closed_of_steps hclosing hq).1, (hsealed.closed_of_steps hclosing hq).2.2⟩
  cases hcall with
  | refused hfirst hbefore hfree hstart hthen =>
    exact ending_of_refused hmin hmax hrun hfirst hbefore hfree hstart hthen
  | @unstarted es fs c b hopening hclosed hphase hfree =>
    obtain ⟨hworkers, hstrands⟩ := strands_of_unstarted hmin hmax hrun hopening hclosed hphase
    have hnot : ¬GivesUp wait launches monitor p b.mark := by
      intro hgives
      have hc : c.phase = .created := by
        obtain ⟨_, _, hclose⟩ := close_eq wait c
        have := created_of_steps hclosed.run hphase
        rwa [hclose] at this
      cases (hopening.unstarted hmin hmax hrun hc).1.symm.trans hgives.1
    have hclosing : b.mark.closing = true :=
      (closed hopening.steps (steps_trans hclosed.run
        (steps_cons (step_mark hfree) (steps_nil _)))).1
    obtain ⟨phase, latest, monitoring, hmark⟩ := mark_eq b
    have hqueue : b.mark.queue = b.queue := by rw [hmark]
    by_cases hnil : b.queue = []
    · have hempty := hqueue.trans hnil
      exact .closed (fun hs => hstrands.mpr hs hnil) hnot hclosing (fun hne => absurd hempty hne)
        fun _ => hempty
    · refine .stranded (hstrands.mp hnil) hnot (hqueue ▸ hnil) (by rw [hmark]; exact hworkers) ?_
      simp [hsealed.accepting, hclosing]
  | @hasty es fs gs c b q hwait hopening hclosed hphase hfree hthen =>
    obtain ⟨hclosing, hkept⟩ :=
      closed hopening.steps (steps_trans hclosed.run (steps_cons (step_mark hfree) hthen.run))
    have hempty : q.queue = [] := hkept (by rw [hwait]; rfl)
    refine .closed (fun hs => ?_) (fun hgives => ?_) hclosing (fun hne =>
      absurd hempty hne) fun _ => hempty
    · cases hwait.symm.trans hs.1
    · cases hwait.symm.trans (startsFirst_eq_true.mp hgives.1).1
  | @waited t es fs gs hs c b d l hwait hopening hclosed hphase hfree hexits hlive hquiet
      hcollected hend =>
    have hlast : d.steps (.collect :: hs ++ [.conclude t]) = some (l.conclude t) := by
      refine steps_trans (steps_cons (step_collect hlive hquiet) hcollected.run) ?_
      rw [steps_singleton]
      exact step_conclude hend t
    rw [List.append_assoc]
    refine ending_of_waited hmin hmax hstaged hwait hopening hclosed hphase hfree hexits hlive hlast
      ?_
    intro e he heq
    subst heq
    rcases List.mem_append.mp he with he | he
    · rcases List.mem_cons.mp he with he | he
      · cases he
      · exact (hcollected.aside _ he).elim
    · cases List.mem_singleton.mp he

end

/-! ## Closed, and nobody stranded -/

/-- No submission is accepted from now on, and jobs in the queue have a worker who stays. -/
structure Shut (q : Pool α) : Prop where
  refuses : ∀ more q', q.steps more = some q' → q'.accepting = false
  attended : q.queue ≠ [] → q.retiring < q.inLoop

theorem kind_refusal (p : Pool α) : p.refusal.kind = .poolFailure := by
  cases h : p.failure <;> simp [refusal, h, Fault.kind]

end Headroom.Pool

namespace Headroom.Simulation

open Pool

variable {α : Type}

theorem pool_fire {s : Simulation α} {e : Event α} {q : Pool α} (h : s.pool.step e = some q) :
    (s.fire e).pool = q := by
  rw [fire, h]
  rfl

theorem enqueue_of_closed {s : Simulation α} (h : s.pool.accepting = false) (index : Nat)
    (body : Result α) (plan : Plan) (limitMs : Option Int) :
    s.enqueue index body plan limitMs = (s, .error s.pool.refusal) := by
  have hadmits : s.admits = true := by simp [admits, h]
  simp [enqueue, hadmits, h]

/-- A submission to a pool that is closed is refused at once, without waiting for room. -/
theorem submit_of_closed {s : Simulation α} (h : s.pool.accepting = false) (body : Result α)
    (plan : Plan) (limitMs : Option Int) :
    (s.submit body plan limitMs).2 = .error s.pool.refusal := by
  have hpool : (s.fire .number).pool = { s.pool with submitted := s.pool.submitted + 1 } :=
    pool_fire rfl
  have hclosed : (s.fire .number).pool.accepting = false := by rw [hpool]; exact h
  rw [submit, enqueue_of_closed hclosed, hpool]
  rfl

end Headroom.Simulation

namespace Headroom.Pool

variable {α : Type}

/-- **When a shutdown closes the pool.** In every state that callers, workers and the monitor can
reach, with other shutdowns before or in the middle, whichever attempts to launch a worker or the
monitor fail, and whatever is submitted meanwhile: after the call no submission is accepted any
more, each is a failure of the pool, and the jobs in the queue have a worker (`Shut`), with two
exceptions. One is a call that has to drain the queue of a pool without workers and cannot
(`Strands`). Then jobs are left there without any worker; and if the call ended with a fault, the
pool still takes more, as before. The other is a call that launches workers but not the monitor
(`GivesUp`): it leaves a running pool, whose workers attend to its jobs, but which takes more. -/
theorem shutdown_closes_iff {config : Config} {now : Int} {es₀ es : List (Event α)} {p q : Pool α}
    {wait : Bool} {launches : Nat → Bool} {monitor : Bool} {outcome : Option Fault}
    (hmin : 1 ≤ config.minWorkers) (hmax : config.minWorkers ≤ config.maxWorkers)
    (hstaged : Staged (create config now) es₀ p)
    (hcall : Shutdown wait launches monitor p es q outcome) :
    (q.Shut ↔ ¬Strands wait launches p es ∧ ¬GivesUp wait launches monitor p q) ∧
      (q.Shut → (outcome = none → q.queue = []) ∧
        ∀ more (s : Simulation α), q.steps more = some s.pool → ∀ body plan limitMs,
          ∃ f, (s.submit body plan limitMs).2 = .error f ∧ f.kind = .poolFailure) ∧
      (Strands wait launches p es → q.queue ≠ [] ∧ q.workers = [] ∧
        (q.accepting = true ↔ outcome ≠ none ∧ p.accepting = true)) ∧
      (GivesUp wait launches monitor p q → outcome = some .noMonitor ∧ q.accepting = true ∧
        q.phase = .running ∧ (q.queue ≠ [] → q.retiring < q.inLoop)) := by
  have hrun := steps_trans hstaged.steps hcall.steps
  have hsealed := sealed_of_steps hrun
  have refused (hshut : q.Shut) (more : List (Event α)) (s : Simulation α)
      (hs : q.steps more = some s.pool) (body : Result α) (plan : Simulation.Plan)
      (limitMs : Option Int) :
      ∃ f, (s.submit body plan limitMs).2 = .error f ∧ f.kind = .poolFailure :=
    ⟨s.pool.refusal, Simulation.submit_of_closed (hshut.refuses more s.pool hs) .., kind_refusal _⟩
  cases hcall.ending hmin hmax hstaged with
  | closed hstrands hgives hclosing hattended hempty =>
    have hshut : q.Shut := by
      refine ⟨fun more q' hmore => ?_, hattended⟩
      rw [(hsealed.of_steps hmore).accepting, (hsealed.closed_of_steps hclosing hmore).1]
      rfl
    exact ⟨⟨fun _ => ⟨hstrands, hgives⟩, fun _ => hshut⟩, fun _ => ⟨hempty, refused hshut⟩,
      fun hs => absurd hs hstrands, fun hg => absurd hg hgives⟩
  | stranded hstrands hgives hqueue hworkers haccepting =>
    have hno : ¬q.Shut := by
      intro hshut
      obtain ⟨_, _, _, hstaffed, _⟩ := staffed_of_steps hmin hmax hrun
      have hlt := hshut.attended hqueue
      have hret := hstaffed.retiring
      rw [inLoop, hworkers, List.countP_nil] at hlt
      omega
    exact ⟨⟨fun hshut => absurd hshut hno, fun hn => absurd hstrands hn.1⟩, fun hshut =>
      absurd hshut hno, fun _ => ⟨hqueue, hworkers, haccepting⟩, fun hg => absurd hg hgives⟩
  | opened hstrands hgives hphase hopen houtcome hattended =>
    have hno : ¬q.Shut := by
      intro hshut
      cases hopen.symm.trans (hshut.refuses [] q rfl)
    exact ⟨⟨fun hshut => absurd hshut hno, fun hn => absurd hgives hn.2⟩, fun hshut =>
      absurd hshut hno, fun hs => absurd hs hstrands, fun _ => ⟨houtcome, hopen, hphase, hattended⟩⟩

/-- A pool that was never started, with a job in its queue. -/
def waiting : Pool Nat := (create { minWorkers := 1, maxWorkers := 1 } 0).enqueue 0 (.ok 7)

theorem staged_waiting :
    Staged (create { minWorkers := 1, maxWorkers := 1 } 0) [.enqueue 0 (.ok 7)] waiting :=
  .cons .nil trivial rfl .nil

/-- A call that starts the pool; its worker runs the job and leaves. -/
def drainWaiting : List (Event Nat) :=
  [.start (fun _ => true) true 1, .read, .read, .read, .close true, .mark, .work 0 .claim,
    .work 0 (.begin (.ok none) 2), .work 0 .run, .work 0 (.finish (.ok none) 3), .work 0 .count,
    .work 0 .claim, .work 0 (.leave 4), .collect, .conclude 5]

theorem shutdown_waiting : ∃ q, Shutdown true (fun _ => true) true waiting drainWaiting q none := by
  obtain ⟨c, d, hopening, hphase, hfree, hexits, hlive, hquiet⟩ :
    ∃ c d, Opening true (fun _ => true) true
      waiting [.start (fun _ => true) true 1, .read, .read, .read] c ∧
        (c.close true).phase ≠ .created ∧
      (c.close true).draft = none ∧
      Meanwhile (c.close true).mark
        [.work 0 .claim, .work 0 (.begin (.ok none) 2), .work 0 .run,
          .work 0 (.finish (.ok none) 3), .work 0 .count, .work 0 .claim, .work 0 (.leave 4)] d ∧
          d.live = 0 ∧ Quiet d :=
    ⟨_, _, .start rfl (.refl waiting) rfl rfl ⟨rfl, by simp [Event.Aside]⟩, nofun, rfl,
      ⟨rfl, by simp [Event.Aside]⟩, rfl, rfl, rfl⟩
  exact ⟨_, .waited 5 rfl hopening (.refl _) hphase hfree hexits hlive hquiet (.refl _)
    ⟨hquiet.looking, hquiet.draft⟩⟩

theorem shutdown_closes_iff_waiting :
    ∃ q, Staged (create { minWorkers := 1, maxWorkers := 1 } 0) [.enqueue 0 (.ok 7)] waiting ∧
      Shutdown true (fun _ => true) true waiting drainWaiting q none ∧ q.Shut := by
  obtain ⟨q, hcall⟩ := shutdown_waiting
  refine ⟨q, staged_waiting, hcall,
    (shutdown_closes_iff (by decide) (by decide) staged_waiting hcall).1.mpr ⟨?_, ?_⟩⟩
  · rintro ⟨_, ⟨_, ⟨_, hnobody⟩ | ⟨hempty, _⟩⟩ | ⟨hstopped, _⟩⟩
    · cases hnobody
    · cases hempty
    · cases hstopped
  · exact fun hgives => nomatch hgives.2.2.1

/-- If no worker can be launched, the same call ends with a fault; the pool then accepts one more
task, and has no worker for either. -/
theorem shutdown_leaves_waiting_open :
    ∃ es q, Shutdown true (fun _ => false) true waiting es q (some .noWorker) ∧ q.accepting = true ∧
      q.workers = [] ∧
      ∃ q', q.step (.enqueue 1 (.ok 8)) = some q' ∧ q'.queue.length = 2 ∧ q'.result? 0 = none := by
  have hcall : Shutdown true (fun _ => false) true waiting [.start (fun _ => false) true 1]
      (waiting.start (fun _ => false) true 1).1 (some .noWorker) :=
    .refused rfl (.refl waiting) rfl rfl (.refl _)
  exact ⟨_, _, hcall, rfl, rfl, _, rfl, rfl, rfl⟩

end Headroom.Pool

/-! ## Simulated calls -/

namespace Headroom.Simulation

open Pool

variable {α : Type}

/-- One action of a simulation is a step of its pool, or only moves its clock and its gates. -/
theorem pool_act {s s' : Simulation α} (h : s.act? = some s') :
    s'.pool = s.pool ∨ ∃ id action, s.pool.step (.work id action) = some s'.pool := by
  obtain ⟨w, _, hw⟩ := List.exists_of_findSome?_eq_some h
  obtain ⟨action, _, rfl⟩ := Option.map_eq_some_iff.mp hw
  have hobey : ((s.fire (.work w.id action)).obey w).pool = (s.fire (.work w.id action)).pool := by
    rw [obey]
    split <;> rfl
  rw [hobey]
  cases hstep : s.pool.step (.work w.id action) with
  | none => exact .inl (by rw [fire, hstep])
  | some q => exact .inr ⟨w.id, action, by rw [pool_fire hstep, hstep]⟩

/-- Whatever workers do in a simulation, the pool is left `Alone` meanwhile. -/
theorem alone_actFor (fuel : Nat) (s : Simulation α) :
    ∃ es, Alone s.pool es (s.actFor fuel).pool := by
  induction fuel generalizing s with
  | zero => exact ⟨[], .refl _⟩
  | succ fuel ih =>
    rw [actFor]
    cases hact : s.act? with
    | none => exact ⟨[], .refl _⟩
    | some s' =>
      obtain ⟨es, hrun, hinner⟩ := ih s'
      -- an action that the stage of the worker does not allow leaves the pool as it is
      rcases pool_act hact with hsame | ⟨id, action, hstep⟩
      · exact ⟨es, hsame ▸ hrun, hinner⟩
      · refine ⟨.work id action :: es, steps_cons hstep hrun, ?_⟩
        simpa [Event.Inner] using hinner

theorem meanwhile_actFor (fuel : Nat) (s : Simulation α) :
    ∃ es, Meanwhile s.pool es (s.actFor fuel).pool :=
  (alone_actFor fuel s).imp fun _ h => h.meanwhile

/-- A worker neither takes the lock for longer nor looks for the monitor, so a `Quiet` pool stays
so. -/
theorem quiet_actFor (fuel : Nat) {s : Simulation α} (h : Quiet s.pool) :
    Quiet (s.actFor fuel).pool := by
  induction fuel generalizing s with
  | zero => exact h
  | succ fuel ih =>
    rw [actFor]
    cases hact : s.act? with
    | none => exact h
    | some s' =>
      refine ih ?_
      rcases pool_act hact with hsame | ⟨id, action, hstep⟩
      · rw [hsame]
        exact h
      · exact (moves_of_step hstep).quiet_of_work h

theorem rest_of_vacant {s : Simulation α} (h : s.pool.workers = []) : s.rest = s := by
  have hact : s.act? = none := by rw [act?, h, List.findSome?_nil]
  rw [rest, actFor, hact]

/-! ### Completing a snapshot -/

theorem fire_of_none {s : Simulation α} {e : Event α} (h : s.pool.step e = none) :
    s.fire e = s := by
  rw [fire, h]

theorem alone_fire {e : Event α} (he : e.Inner) (s : Simulation α) :
    ∃ es, Alone s.pool es (s.fire e).pool := by
  cases hstep : s.pool.step e with
  | none => exact ⟨[], by rw [fire_of_none hstep]; exact .refl _⟩
  | some q =>
    rw [pool_fire hstep]
    exact ⟨[e], by rw [steps_singleton]; exact hstep, by simpa using he⟩

theorem alone_announce (s : Simulation α) : ∃ es, Alone s.pool es s.announce.pool := by
  obtain ⟨es, hfirst⟩ := alone_fire (e := .read) trivial s
  obtain ⟨fs, hsecond⟩ := alone_fire (e := .read) trivial (s.fire .read)
  obtain ⟨gs, hthird⟩ := alone_fire (e := .read) trivial ((s.fire .read).fire .read)
  exact ⟨es ++ fs ++ gs, (hfirst.trans hsecond).trans hthird⟩

/-- How many counts of a draft are still to be read: the lock is held until there are none. -/
def unread (p : Pool α) : Nat :=
  match p.draft.map Draft.tally with
  | none => 0
  | some .nothing => 3
  | some (.queued _) => 2
  | some (.completed ..) => 1

theorem unread_read (s : Simulation α) :
    unread (s.fire .read).pool = unread s.pool - 1 ∧
      (s.fire .read).pool.looking = s.pool.looking := by
  cases hstep : s.pool.step .read with
  | none =>
    have hdraft : s.pool.draft = none := by simpa [step, Event.locks, happen] using hstep
    rw [fire_of_none hstep]
    simp [unread, hdraft]
  | some q =>
    rw [pool_fire hstep]
    cases moves_of_step hstep with
    | readQueued hdraft htally | readCompleted hdraft htally | readFailed hdraft htally =>
      simp [unread, hdraft, htally]

/-- After three readings the lock is free, whatever draft there was. -/
theorem quiet_announce {s : Simulation α} (h : s.pool.looking = none) : Quiet s.announce.pool := by
  obtain ⟨hfirst, hlook⟩ := unread_read s
  obtain ⟨hsecond, hlook'⟩ := unread_read (s.fire .read)
  obtain ⟨hthird, hlook''⟩ := unread_read ((s.fire .read).fire .read)
  have hle : unread s.pool ≤ 3 := by
    unfold unread
    split <;> omega
  have hzero : unread s.announce.pool = 0 := by
    show unread (((s.fire .read).fire .read).fire .read).pool = 0
    omega
  refine ⟨?_, ?_⟩
  · show (((s.fire .read).fire .read).fire .read).pool.looking = none
    rw [hlook'', hlook', hlook, h]
  · cases hdraft : s.announce.pool.draft with
    | none => rfl
    | some d => cases htally : d.tally <;> simp [unread, hdraft, htally] at hzero

/-- A start leaves the pool as `Pool.start` says, and then what it has published is completed. -/
theorem launchPool_eq {s : Simulation α} (hquiet : Quiet s.pool) :
    ∃ es, Meanwhile (s.pool.start s.host.launches true s.clock).1 es s.launchPool.1.pool ∧
      Quiet s.launchPool.1.pool := by
  have hstep := step_start hquiet.draft s.host.launches true s.clock
  have hfire : (s.fire (.start s.host.launches true s.clock)).pool =
      (s.pool.start s.host.launches true s.clock).1 := pool_fire hstep
  have hlooking : (s.fire (.start s.host.launches true s.clock)).pool.looking = none := by
    rw [hfire, looking_start]
    exact hquiet.looking
  have hpool : s.launchPool.1.pool =
      (s.fire (.start s.host.launches true s.clock)).announce.pool := by
    simp only [launchPool]
    split <;> rfl
  obtain ⟨es, hes⟩ := alone_announce (s.fire (.start s.host.launches true s.clock))
  rw [hfire, ← hpool] at hes
  exact ⟨es, hes.meanwhile, hpool ▸ quiet_announce hlooking⟩

/-- What `close` computes is the part of a call from the closing on. -/
theorem shutdown_of_close {s : Simulation α} {wait : Bool} {launches : Nat → Bool} {monitor : Bool}
    {p : Pool α} {es : List (Event α)} (hquiet : Quiet s.pool)
    (hvacant : s.pool.phase = .created → s.pool.workers = [])
    (hopening : Opening wait launches monitor p es s.pool)
    (hreturns : wait = true → (s.close wait).pool.live = 0) :
    ∃ es', Shutdown wait launches monitor p es' (s.close wait).pool none := by
  obtain ⟨ledger, queued, hclose⟩ := close_eq wait s.pool
  obtain ⟨phase, latest, monitoring, hmark⟩ := mark_eq (s.pool.close wait)
  have hfree : (s.pool.close wait).draft = none := by rw [hclose]; exact hquiet.draft
  have hmarked : ((s.fire (.close wait)).fire .mark).pool = (s.pool.close wait).mark := by
    refine pool_fire ?_
    rw [pool_fire (e := .close wait) rfl]
    exact step_mark hfree
  have hquiet' : Quiet ((s.fire (.close wait)).fire .mark).pool := by
    rw [hmarked, hmark, hclose]
    exact ⟨hquiet.looking, hquiet.draft⟩
  obtain ⟨gs, hrest⟩ : ∃ gs, Meanwhile (s.pool.close wait).mark gs
      ((s.fire (.close wait)).fire .mark).rest.pool := hmarked ▸ meanwhile_actFor _ _
  have hrested : Quiet ((s.fire (.close wait)).fire .mark).rest.pool := quiet_actFor _ hquiet'
  -- the simulation ends here, unless it waits and all workers have exited
  generalize hr : ((s.fire (.close wait)).fire .mark).rest = r at hrest hrested
  have hresult : s.close wait = if s.pool.phase = .created || !wait || r.pool.live != 0 then r
      else (r.fire .collect).fire (.conclude r.clock) := by rw [← hr]; rfl
  by_cases hphase : s.pool.phase = .created
  · -- nobody is there to do anything after the phase has followed
    have hworkers : ((s.fire (.close wait)).fire .mark).pool.workers = [] := by
      rw [hmarked, hmark, hclose]
      exact hvacant hphase
    have hend : (s.close wait).pool = (s.pool.close wait).mark := by
      rw [hresult, if_pos (by simp [hphase]), ← hr, rest_of_vacant hworkers, hmarked]
    rw [hend]
    exact ⟨_, .unstarted hopening (.refl _) (by rw [hclose]; exact hphase) hfree⟩
  · have hstarted : (s.pool.close wait).phase ≠ .created := by rw [hclose]; exact hphase
    cases wait with
    | false =>
      have hend : s.close false = r := by rw [hresult, if_pos (by simp)]
      rw [hend]
      exact ⟨_, .hasty rfl hopening (.refl _) hstarted hfree hrest⟩
    | true =>
      -- a call that waits returns only if nobody is left, so it gets to the last two steps
      have hlive : r.pool.live = 0 := by
        by_contra hlive
        have hreturns := hreturns rfl
        rw [hresult, if_pos (by simp [hlive])] at hreturns
        exact hlive hreturns
      have hcollected : Quiet r.pool.collect := ⟨hrested.looking, hrested.draft⟩
      have hcollect : (r.fire .collect).pool = r.pool.collect :=
        pool_fire (step_collect hlive hrested)
      have hend : (s.close true).pool = r.pool.collect.conclude r.clock := by
        rw [hresult, if_neg (by simp [hphase, hlive])]
        refine pool_fire ?_
        rw [hcollect]
        exact step_conclude hcollected r.clock
      rw [hend]
      exact ⟨_, .waited r.clock rfl hopening (.refl _) hstarted hfree hrest hlive hrested (.refl _)
        hcollected⟩

/-- What `Simulation.shutdown` computes is a call of shutdown, if it returns: a caller who waits
does so until all workers have exited. -/
theorem shutdown_of_simulation {config : Config} {now : Int} {es₀ : List (Event α)}
    {s : Simulation α} {wait : Bool} (hmin : 1 ≤ config.minWorkers)
    (hmax : config.minWorkers ≤ config.maxWorkers)
    (hrun : (Pool.create config now).steps es₀ = some s.pool) (hquiet : Quiet s.pool)
    (hreturns : wait = true → (s.shutdown wait).1.pool.live = 0) :
    ∃ es, Shutdown wait s.host.launches true s.pool es (s.shutdown wait).1.pool
      (s.shutdown wait).2 := by
  cases hfirst : s.pool.startsFirst wait with
  | false =>
    have hcall : s.shutdown wait = (s.close wait, none) := by rw [shutdown, hfirst]; rfl
    rw [hcall] at hreturns ⊢
    refine shutdown_of_close hquiet (fun hphase => ?_) (.skip hfirst (.refl _)) hreturns
    exact (vacant_of_created hmin hmax hrun hphase).workers
  | true =>
    obtain ⟨fs, hthen, hquiet'⟩ := launchPool_eq hquiet
    cases hfault : (s.pool.start s.host.launches true s.clock).2 with
    | some f =>
      -- the call ends with the fault of the start, and workers go on
      have hcall : s.shutdown wait = (s.launchPool.1.rest, some f) := by
        simp only [shutdown, hfirst, if_true, launchPool, hfault]
      obtain ⟨gs, hrest⟩ := meanwhile_actFor
        (8 * (s.launchPool.1.pool.queue.length + s.launchPool.1.pool.workers.length) + 8)
          s.launchPool.1
      rw [hcall]
      exact ⟨_, .refused hfirst (.refl _) hquiet.draft (by rw [← hfault]) (hthen.trans hrest)⟩
    | none =>
      -- the start returns, and the closing follows
      have hcall : s.shutdown wait = (s.launchPool.1.close wait, none) := by
        simp only [shutdown, hfirst, if_true, launchPool, hfault]
      have hstart : s.pool.start s.host.launches true s.clock =
          ((s.pool.start s.host.launches true s.clock).1, none) := by rw [← hfault]
      have hcreated : s.pool.phase = .created := (startsFirst_eq_true.mp hfirst).2.1
      rw [hcall] at hreturns ⊢
      refine shutdown_of_close hquiet' (fun hphase => ?_)
        (.start hfirst (.refl _) hquiet.draft hstart hthen) hreturns
      cases (start_eq_ok hcreated hstart).2.2.symm.trans (created_of_steps hthen.run hphase)

end Headroom.Simulation
