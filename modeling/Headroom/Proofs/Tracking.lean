import Headroom.Proofs.Crew

/-!
# Where the tasks of a pool are

Every task that was accepted is in the queue, in the hands of a worker, or has its result. The
invariant `Tracked` says so for all tickets at once:

* The queue holds the last tickets that were given out, in order. Every smaller ticket has left it.
* A ticket that has left the queue and has no result is in the hands of a worker, and no two workers
  have the same ticket.
* A job in the queue, or one whose body has not run, has no result yet.

`tracked_of_steps` has it for every run, with the tasks that the run handed in. The three ways in
which a ticket gets its result are one lemma each: `Tracked.settle` for a job in hand,
`Tracked.flush` for all that wait.
-/

namespace Headroom.Pool

variable {α : Type}

/-! ## The ledger -/

/-- `settle` writes into the ledger and does not lengthen it, so no task is accepted by it. -/
@[simp] theorem accepted_settle (t : Nat) (r : Result α) (p : Pool α) :
    (p.settle t r).accepted = p.accepted :=
  List.length_modify ..

/-- Settling gives ticket `t` the result `r`, unless it has one: `or` keeps what is there. A ticket
that was never given out stays without. -/
theorem result?_settle (t : Nat) (r : Result α) (p : Pool α) (u : Nat) :
    (p.settle t r).result? u = (p.result? u).or (if u = t ∧ u < p.accepted then some r
      else none) := by
  simp only [result?, settle, accepted, List.getElem?_modify]
  by_cases hu : u < p.ledger.length
  · rw [List.getElem?_eq_getElem hu]
    by_cases ht : t = u
    · subst ht
      cases p.ledger[t] <;> simp [hu]
    · simp [ht, Ne.symm ht]
  · simp [hu]

@[simp] theorem accepted_settleAll (jobs : List (Job α)) (r : Result α) (p : Pool α) :
    (p.settleAll jobs r).accepted = p.accepted := by
  induction jobs generalizing p with
  | nil => rfl
  | cons job rest ih => exact (ih _).trans (accepted_settle ..)

/-- Settling many jobs, by ticket: those among `jobs` get `r` where they have no result yet. The
order of `jobs` does not matter, since all get the same one. -/
theorem result?_settleAll (jobs : List (Job α)) (r : Result α) (p : Pool α) (u : Nat) :
    (p.settleAll jobs r).result? u =
      (p.result? u).or (if u ∈ jobs.map Job.ticket ∧ u < p.accepted then some r else none) := by
  induction jobs generalizing p with
  | nil => simp [settleAll]
  | cons job rest ih =>
    have hstep : p.settleAll (job :: rest) r = (p.settle job.ticket r).settleAll rest r := rfl
    rw [hstep, ih, result?_settle, accepted_settle, Option.or_assoc]
    congr 1
    simp only [List.map_cons, List.mem_cons]
    by_cases hjob : u = job.ticket
    · subst hjob
      by_cases hlt : job.ticket < p.accepted <;> simp [hlt]
    · simp [hjob]

/-- A result stays what it is, whichever ticket is settled after it. -/
theorem result?_settle_of_some {t u : Nat} {r x : Result α} {p : Pool α}
    (h : p.result? u = some x) :
    (p.settle t r).result? u = some x := by
  rw [result?_settle, h, Option.some_or]

/-- A ticket without a result has it after `settle`. -/
theorem result?_settle_self {t : Nat} (r : Result α) {p : Pool α} (ht : t < p.accepted)
    (h : p.result? t = none) :
    (p.settle t r).result? t = some r := by
  rw [result?_settle, h, if_pos ⟨rfl, ht⟩, Option.none_or]

theorem result?_settle_of_ne {t u : Nat} (r : Result α) {p : Pool α} (h : u ≠ t) :
    (p.settle t r).result? u = p.result? u := by
  rw [result?_settle, if_neg fun hc => h hc.1, Option.or_none]

/-- A task that is handed in gets a new place in the ledger, without a result. What the others have
is not concerned. -/
@[simp] theorem result?_enqueue (index : Nat) (body : Result α) (p : Pool α) (u : Nat) :
    (p.enqueue index body).result? u = p.result? u := by
  simp only [result?, enqueue, List.getElem?_append]
  split
  · rfl
  · next hu =>
    rw [List.getElem?_eq_none (Nat.le_of_not_lt hu)]
    cases u - p.ledger.length <;> rfl

theorem lt_of_result? {p : Pool α} {u : Nat} {r : Result α} (h : p.result? u = some r) :
    u < p.accepted := by
  refine Nat.lt_of_not_le fun hle => ?_
  rw [result?, List.getElem?_eq_none hle] at h
  cases h

/-! ## Jobs in hand -/

namespace Stage

/-- The job that a worker has in hand. A worker that only counts a job has let it go. -/
def job? : Stage α → Option (Job α)
  | .claimed job | .running job _ | .ran job _ | .broken job _ | .closing job _
  | .abandoning job _ =>
    some job
  | .free | .measured _ | .counted _ | .leaving | .gone => none

/-- The job that a worker is about to run: it has no result yet. -/
def ahead? : Stage α → Option (Job α)
  | .claimed job | .running job _ => some job
  | _ => none

/-- The job that a worker has just run, whose time is still to be taken: it has its own result. -/
def behind? : Stage α → Option (Job α)
  | .ran job _ => some job
  | _ => none

theorem job?_of_ahead? {s : Stage α} {job : Job α} (h : s.ahead? = some job) :
    s.job? = some job := by
  cases s <;> simp_all [ahead?, job?]

theorem job?_of_behind? {s : Stage α} {job : Job α} (h : s.behind? = some job) :
    s.job? = some job := by
  cases s <;> simp_all [behind?, job?]

end Stage

/-- The job in the hands of the worker with this number: what `Stage.job?` shows of its stage. -/
def held (p : Pool α) (i : Nat) : Option (Job α) := p.view Stage.job? i

/-- Every view that shows only jobs in hand agrees with `held` where it shows one. -/
theorem held_of_view {f : Stage α → Option (Job α)}
    (hf : ∀ s job, f s = some job → s.job? = some job) {p : Pool α} {i : Nat} {job : Job α}
    (h : p.view f i = some job) : p.held i = some job := by
  obtain ⟨s, hat, hjob⟩ := view_eq_some.mp h
  exact view_eq_some.mpr ⟨s, hat, hf s job hjob⟩

/-- A worker gets a job (`held`) only by taking the first one of the queue. -/
theorem Moves.held_before {p q : Pool α} {e : Event α} (hm : Moves p e q) (hroster : Roster p)
    {i : Nat} {job : Job α} (hi : q.held i = some job) :
    p.held i = some job ∨ e = .work i .claim ∧ ∃ rest, p.queue = job :: rest := by
  have others := hroster.view_move (f := Stage.job?) hm
  -- a worker that keeps its job, or lets go of it
  have older {id : Nat} {t s : Stage α} (hat : p.stage? id = some t)
      (hview : q.held i = (p.setStage id s).held i) (hs : s.job? = t.job? ∨ s.job? = none) :
      p.held i = some job := view_of_setStage hat hs (hview.symm.trans hi)
  cases hm with
  | number | enqueue | startLate | startFails | start | drain | cancel | markUnstarted | markRunning
  | markLate | collect | concludeSame | conclude | survey | look | lookIdle | readQueued
  | readCompleted | readFailed => exact .inl ((others rfl rfl rfl i).symm.trans hi)
  | retire hat | depart hat | begin hat | beginFails hat | run hat | finishFails hat | count hat
  | countFailing hat | countFailed hat | shut hat | shutAgain hat | yield hat | leave hat
  | leaveLast hat =>
    exact .inl (older hat rfl (.inl rfl))
  | finish hat | abandon hat => exact .inl (older hat rfl (.inr rfl))
  | @take id job' rest hat _ hqueue =>
    have hi : (p.setStage id (.claimed job')).held i = some job := hi
    rw [held, view_setStage hat] at hi
    split at hi
    · next heq =>
      cases hi
      exact .inr ⟨by rw [heq], rest, hqueue⟩
    · exact .inl hi

/-- How many tickets have left the queue. They are the smallest ones, since the queue is in the
order of tickets. -/
def departed (p : Pool α) : Nat := p.accepted - p.queue.length

/-- Where the tasks that were handed in are. The fields are the three statements above, with what is
needed to keep them: jobs carry the task of their ticket, and a job that is `behind?` has its own
outcome as its result. -/
structure Tracked (tasks : List (Nat × Result α)) (p : Pool α) : Prop where
  accepted : p.accepted = tasks.length
  fits : p.queue.length ≤ p.accepted
  queued : p.queue.map Job.ticket = List.range' p.departed p.queue.length
  queued_task : ∀ job ∈ p.queue, tasks[job.ticket]? = some (job.index, job.body)
  queued_pending : ∀ job ∈ p.queue, p.result? job.ticket = none
  held_departed : ∀ i job, p.held i = some job → job.ticket < p.departed
  held_task : ∀ i job, p.held i = some job → tasks[job.ticket]? = some (job.index, job.body)
  held_once : ∀ i j job job', p.held i = some job → p.held j = some job' →
    job.ticket = job'.ticket → i = j
  ahead_pending : ∀ i job, p.view Stage.ahead? i = some job → p.result? job.ticket = none
  behind_settled : ∀ i job, p.view Stage.behind? i = some job →
    p.result? job.ticket = some job.outcome
  pending_held : ∀ t < p.departed, p.result? t = none → ∃ i job, p.held i = some job ∧
    job.ticket = t

namespace Tracked

variable {tasks : List (Nat × Result α)} {p q : Pool α}

/-- The jobs in the queue and those that have left it (`departed`) are all that were accepted. -/
theorem departed_add (h : Tracked tasks p) : p.departed + p.queue.length = p.accepted := by
  have := h.fits
  simp only [departed]
  omega

/-- A ticket is in the queue if it was given out and has not left it. -/
theorem mem_queue (h : Tracked tasks p) (t : Nat) :
    t ∈ p.queue.map Job.ticket ↔ p.departed ≤ t ∧ t < p.accepted := by
  rw [h.queued, List.mem_range'_1, h.departed_add]

/-- A job in hand (`held`) has a ticket that was given out, and one before all that wait. -/
theorem held_lt (h : Tracked tasks p) {i : Nat} {job : Job α} (hheld : p.held i = some job) :
    job.ticket < p.accepted := by
  have := h.held_departed i job hheld
  have := h.departed_add
  omega

theorem held_of_ahead {i : Nat} {job : Job α} (h : p.view Stage.ahead? i = some job) :
    p.held i = some job :=
  held_of_view (fun _ _ => Stage.job?_of_ahead?) h

theorem held_of_behind {i : Nat} {job : Job α} (h : p.view Stage.behind? i = some job) :
    p.held i = some job :=
  held_of_view (fun _ _ => Stage.job?_of_behind?) h

/-! ### Steps that settle nothing -/

/-- `Tracked` reads the queue, the ledger and three views of the workers. A step that leaves the
first two and `held` alone, and shows no job as ahead or behind that was not so before, keeps it. -/
theorem carry (h : Tracked tasks p) (hqueue : q.queue = p.queue) (hledger : q.ledger = p.ledger)
    (hheld : ∀ i, q.held i = p.held i)
    (hahead : ∀ i job, q.view Stage.ahead? i = some job → p.view Stage.ahead? i = some job)
    (hbehind : ∀ i job, q.view Stage.behind? i = some job → p.view Stage.behind? i = some job) :
    Tracked tasks q := by
  have haccepted : q.accepted = p.accepted := by rw [Pool.accepted, hledger, Pool.accepted]
  have hdeparted : q.departed = p.departed := by rw [departed, haccepted, hqueue, departed]
  have hresult (t : Nat) : q.result? t = p.result? t := by rw [result?, hledger, result?]
  constructor <;> simp only [haccepted, hdeparted, hqueue, hheld, hresult]
  · exact h.accepted
  · exact h.fits
  · exact h.queued
  · exact h.queued_task
  · exact h.queued_pending
  · exact h.held_departed
  · exact h.held_task
  · exact h.held_once
  · exact fun i job hi => h.ahead_pending i job (hahead i job hi)
  · exact fun i job hi => h.behind_settled i job (hbehind i job hi)
  · exact h.pending_held

/-- A worker that keeps its job in hand keeps track of it (`Tracked`), unless it has got ahead with
it. -/
theorem setStage (h : Tracked tasks p) {id : Nat} {t : Stage α} (hat : p.stage? id = some t)
    (s : Stage α) (hjob : s.job? = t.job?) (hahead : s.ahead? = t.ahead? ∨ s.ahead? = none)
    (hbehind : s.behind? = t.behind? ∨ s.behind? = none) : Tracked tasks (p.setStage id s) := by
  have kept {f : Stage α → Option (Job α)} (hf : f s = f t ∨ f s = none) (i : Nat) (job : Job α)
      (hi : (p.setStage id s).view f i = some job) : p.view f i = some job := by
    rw [view_setStage hat] at hi
    split at hi
    · next heq =>
      rw [heq, view_of_stage hat]
      rcases hf with hf | hf
      · rw [← hf]; exact hi
      · rw [hf] at hi; cases hi
    · exact hi
  exact h.carry rfl rfl (view_setStage_same hat hjob) (kept hahead) (kept hbehind)

/-- A task that is handed in takes the next ticket and the last place of the queue. -/
theorem enqueue (h : Tracked tasks p) (index : Nat) (body : Result α) :
    Tracked (tasks ++ [(index, body)]) (p.enqueue index body) := by
  have hfits := h.fits
  have hadd := h.departed_add
  have haccepted : (p.enqueue index body).accepted = p.accepted + 1 := by
    simp [Pool.accepted, Pool.enqueue]
  have hqueue : (p.enqueue index body).queue = p.queue ++ [⟨p.accepted, index, body⟩] := rfl
  have hdeparted : (p.enqueue index body).departed = p.departed := by
    simp only [departed, haccepted, hqueue, List.length_append, List.length_singleton]
    omega
  -- tickets are positions in the list of tasks, so the earlier ones keep their tasks
  have old {t : Nat} {task : Nat × Result α} (ht : tasks[t]? = some task) :
      (tasks ++ [(index, body)])[t]? = some task := by
    rw [List.getElem?_append_left (List.getElem?_eq_some_iff.mp ht).1, ht]
  have new : (tasks ++ [(index, body)])[p.accepted]? = some (index, body) := by
    rw [h.accepted, List.getElem?_concat_length]
  have hnone : p.result? p.accepted = none := by
    cases hr : p.result? p.accepted with
    | none => rfl
    | some r => exact absurd (lt_of_result? hr) (Nat.lt_irrefl _)
  constructor
  · rw [haccepted, h.accepted, List.length_append, List.length_singleton]
  · rw [haccepted, hqueue, List.length_append, List.length_singleton]
    omega
  · rw [hdeparted, hqueue, List.map_append, h.queued, List.length_append, List.length_singleton,
      List.range'_1_concat, hadd]
    rfl
  · intro job hjob
    rw [hqueue, List.mem_append, List.mem_singleton] at hjob
    rcases hjob with hjob | rfl
    · exact old (h.queued_task job hjob)
    · exact new
  · intro job hjob
    rw [hqueue, List.mem_append, List.mem_singleton] at hjob
    rw [result?_enqueue]
    rcases hjob with hjob | rfl
    · exact h.queued_pending job hjob
    · exact hnone
  · rw [hdeparted]; exact h.held_departed
  · exact fun i job hi => old (h.held_task i job hi)
  · exact h.held_once
  · simp only [result?_enqueue]; exact h.ahead_pending
  · simp only [result?_enqueue]; exact h.behind_settled
  · simp only [result?_enqueue, hdeparted]; exact h.pending_held

/-- A worker takes the job with the smallest ticket in the queue. -/
theorem take (h : Tracked tasks p) {id : Nat} {job : Job α} {rest : List (Job α)}
    (hat : p.stage? id = some .free) (hqueue : p.queue = job :: rest) :
    Tracked tasks ({ p with queue := rest, queued := rest.length }.setStage id (.claimed job)) := by
  have hadd := h.departed_add
  rw [hqueue, List.length_cons] at hadd
  have hdeparted : p.accepted - rest.length = p.departed + 1 := by omega
  have hqueued := h.queued
  rw [hqueue, List.length_cons, List.range'_succ, List.map_cons, List.cons_eq_cons] at hqueued
  have hview {f : Stage α → Option (Job α)} (i : Nat) :
      ({ p with queue := rest, queued := rest.length }.setStage id (.claimed job)).view f i =
        if i = id then f (.claimed job) else p.view f i := view_setStage hat _ i
  have hfree : p.held id = none := view_of_stage hat
  constructor
  · exact h.accepted
  · show rest.length ≤ p.accepted
    omega
  · show rest.map Job.ticket = List.range' (p.accepted - rest.length) rest.length
    rw [hdeparted]
    exact hqueued.2
  · exact fun job' hjob' => h.queued_task job' (hqueue ▸ List.mem_cons_of_mem _ hjob')
  · exact fun job' hjob' => h.queued_pending job' (hqueue ▸ List.mem_cons_of_mem _ hjob')
  · intro i job' hi
    -- the job that was taken has the least ticket of the queue, which is now the last that left
    show job'.ticket < p.accepted - rest.length
    rw [held, hview] at hi
    split at hi
    · cases hi
      omega
    · have := h.held_departed i job' hi
      omega
  · intro i job' hi
    rw [held, hview] at hi
    split at hi
    · cases hi
      exact h.queued_task job (hqueue ▸ List.mem_cons_self)
    · exact h.held_task i job' hi
  · -- the new ticket has just left the queue, so nobody else had it in hand
    intro i j job₁ job₂ hi hj heq
    rw [held, hview] at hi hj
    split at hi <;> split at hj
    · next hi' hj' => rw [hi', hj']
    · cases hi
      have := h.held_departed j job₂ hj
      omega
    · cases hj
      have := h.held_departed i job₁ hi
      omega
    · exact h.held_once i j job₁ job₂ hi hj heq
  · intro i job' hi
    rw [hview] at hi
    split at hi
    · cases hi
      exact h.queued_pending job (hqueue ▸ List.mem_cons_self)
    · exact h.ahead_pending i job' hi
  · intro i job' hi
    rw [hview] at hi
    split at hi
    · cases hi
    · exact h.behind_settled i job' hi
  · intro t ht hnone
    have ht : t < p.accepted - rest.length := ht
    -- the ticket left before and its worker is another one, or it is the job that was taken
    by_cases hlt : t < p.departed
    · obtain ⟨i, job', hi, heq⟩ := h.pending_held t hlt hnone
      have hne : i ≠ id := by
        rintro rfl
        rw [hfree] at hi
        cases hi
      exact ⟨i, job', by rw [held, hview, if_neg hne]; exact hi, heq⟩
    · exact ⟨id, job, by rw [held, hview, if_pos rfl]; rfl, by omega⟩

/-- A worker that has run its job and measured it lets go of it; the result is there. -/
theorem finish (h : Tracked tasks p) {id : Nat} {job : Job α} {watch : Stopwatch}
    (hat : p.stage? id = some (.ran job watch)) :
    Tracked tasks (p.setStage id (.measured job)) := by
  have hsettled : p.result? job.ticket = some job.outcome :=
    h.behind_settled id job (view_of_stage hat)
  have hheld : p.held id = some job := view_of_stage hat
  have older {f : Stage α → Option (Job α)} (hf : f (.measured job) = none) {i : Nat} {job' : Job α}
      (hi : (p.setStage id (.measured job)).view f i = some job') : p.view f i = some job' := by
    rw [view_setStage hat] at hi
    split at hi
    · rw [hf] at hi; cases hi
    · exact hi
  refine ⟨h.accepted, h.fits, h.queued, h.queued_task, h.queued_pending,
    fun i job' hi => h.held_departed i job' (older rfl hi), fun i job' hi =>
      h.held_task i job' (older rfl hi),
    fun i j job₁ job₂ hi hj => h.held_once i j job₁ job₂ (older rfl hi) (older rfl hj),
    fun i job' hi => h.ahead_pending i job' (older rfl hi), fun i job' hi =>
      h.behind_settled i job' (older rfl hi), ?_⟩
  -- the job that this worker lets go of is not pending
  intro t ht hnone
  obtain ⟨i, job', hi, heq⟩ := h.pending_held t ht hnone
  refine ⟨i, job', ?_, heq⟩
  rw [held, view_setStage hat, if_neg]
  · exact hi
  · rintro rfl
    rw [hheld] at hi
    cases hi
    have hnone : p.result? t = none := hnone
    rw [← heq, hsettled] at hnone
    cases hnone

/-! ### Steps that settle something -/

/-- A job in hand gets a result, and the tasks stay `Tracked`. Nobody else has its ticket, and it is
not in the queue. -/
theorem settle (h : Tracked tasks p) {id : Nat} {t : Stage α} {job : Job α}
    (hat : p.stage? id = some t) (hjob : t.job? = some job) (r : Result α) (s : Stage α)
    (hkeep : s.job? = some job ∨ s.job? = none) (hahead : s.ahead? = none) (hbehind : ∀ job',
    s.behind? = some job' → job' = job ∧ p.result? job.ticket = none ∧ r = job.outcome) :
    Tracked tasks ((p.settle job.ticket r).setStage id s) := by
  have hheld : p.held id = some job := (view_of_stage hat).trans hjob
  have hlt := h.held_lt hheld
  have haccepted : ((p.settle job.ticket r).setStage id s).accepted = p.accepted :=
    accepted_settle ..
  have hdeparted : ((p.settle job.ticket r).setStage id s).departed = p.departed := by
    simp only [departed, haccepted]
    rfl
  have hview {f : Stage α → Option (Job α)} (i : Nat) :
      ((p.settle job.ticket r).setStage id s).view f i = if i = id then f s else p.view f i :=
        view_setStage hat _ i
  have hresult (u : Nat) :
      ((p.settle job.ticket r).setStage id s).result? u = (p.settle job.ticket r).result? u := rfl
  have older {i : Nat} {job' : Job α}
      (hi : ((p.settle job.ticket r).setStage id s).held i = some job') :
      p.held i = some job' := by
    rw [held, hview] at hi
    split at hi
    · next heq =>
      rcases hkeep with hkeep | hkeep
      · rw [heq, hheld, ← hkeep]; exact hi
      · rw [hkeep] at hi; cases hi
    · exact hi
  -- what the others have in hand is not touched
  have other {i : Nat} {job' : Job α} (hi : p.held i = some job') (hne : i ≠ id) :
      job'.ticket ≠ job.ticket :=
    fun heq => hne (h.held_once i id job' job hi hheld heq)
  constructor
  · rw [haccepted]; exact h.accepted
  · rw [haccepted]; exact h.fits
  · rw [hdeparted]; exact h.queued
  · exact h.queued_task
  · intro job' hjob'
    have hge := ((h.mem_queue job'.ticket).mp (List.mem_map_of_mem hjob')).1
    have hdep := h.held_departed id job hheld
    rw [hresult, result?_settle_of_ne r (by omega)]
    exact h.queued_pending job' hjob'
  · rw [hdeparted]; exact fun i job' hi => h.held_departed i job' (older hi)
  · exact fun i job' hi => h.held_task i job' (older hi)
  · exact fun i j job₁ job₂ hi hj => h.held_once i j job₁ job₂ (older hi) (older hj)
  · intro i job' hi
    rw [hview] at hi
    split at hi
    · rw [hahead] at hi; cases hi
    · next hne =>
      rw [hresult, result?_settle_of_ne r (other (held_of_ahead hi) hne)]
      exact h.ahead_pending i job' hi
  · intro i job' hi
    rw [hview] at hi
    rw [hresult]
    split at hi
    · obtain ⟨rfl, hnone, rfl⟩ := hbehind job' hi
      exact result?_settle_self _ hlt hnone
    · exact result?_settle_of_some (h.behind_settled i job' hi)
  · intro u hu hnone
    rw [hdeparted] at hu
    rw [hresult, result?_settle, Option.or_eq_none_iff] at hnone
    have hne : u ≠ job.ticket := by
      rintro rfl
      simp [hlt] at hnone
    obtain ⟨i, job', hi, heq⟩ := h.pending_held u hu hnone.1
    refine ⟨i, job', ?_, heq⟩
    rw [held, hview, if_neg]
    · exact hi
    · rintro rfl
      rw [hheld] at hi
      cases hi
      exact hne heq.symm

/-- All jobs in the queue get a result, and the queue is empty: the tasks stay `Tracked`, with
nobody waiting. -/
theorem flush (h : Tracked tasks p) (r : Result α) (hqueue : q.queue = [])
    (hledger : q.ledger = (p.settleAll p.queue r).ledger) (hheld : ∀ i, q.held i = p.held i)
    (hahead : ∀ i, q.view Stage.ahead? i = p.view Stage.ahead? i)
    (hbehind : ∀ i, q.view Stage.behind? i = p.view Stage.behind? i) : Tracked tasks q := by
  have haccepted : q.accepted = p.accepted := by
    rw [Pool.accepted, hledger]
    exact accepted_settleAll ..
  have hdeparted : q.departed = p.accepted := by rw [departed, haccepted, hqueue]; rfl
  have hadd := h.departed_add
  have hresult (u : Nat) : q.result? u =
      (p.result? u).or (if u ∈ p.queue.map Job.ticket ∧ u < p.accepted then some r else none) := by
    rw [result?, hledger]
    exact result?_settleAll p.queue r p u
  -- a ticket that has left the queue is not touched
  have hkept {u : Nat} (hu : u < p.departed) : q.result? u = p.result? u := by
    have hnot : ¬(u ∈ p.queue.map Job.ticket ∧ u < p.accepted) := by
      rw [h.mem_queue]
      omega
    rw [hresult, if_neg hnot, Option.or_none]
  refine ⟨haccepted.trans h.accepted, ?_, ?_, ?_, ?_, ?_, ?_, ?_, ?_, ?_, ?_⟩
  · simp [hqueue]
  · simp [hqueue]
  · simp [hqueue]
  · simp [hqueue]
  · intro i job hi
    rw [hheld] at hi
    rw [hdeparted]
    exact h.held_lt hi
  · exact fun i job hi => h.held_task i job (hheld i ▸ hi)
  · exact fun i j job job' hi hj => h.held_once i j job job' (hheld i ▸ hi) (hheld j ▸ hj)
  · intro i job hi
    rw [hahead] at hi
    rw [hkept (h.held_departed i job (held_of_ahead hi))]
    exact h.ahead_pending i job hi
  · intro i job hi
    rw [hbehind] at hi
    rw [hkept (h.held_departed i job (held_of_behind hi))]
    exact h.behind_settled i job hi
  · intro u hu hnone
    rw [hdeparted] at hu
    rw [hresult, Option.or_eq_none_iff] at hnone
    have hleft : u < p.departed := by
      refine Nat.lt_of_not_le fun hge => ?_
      rw [if_pos ⟨(h.mem_queue u).mpr ⟨hge, hu⟩, hu⟩] at hnone
      cases hnone.2
    obtain ⟨i, job, hi, heq⟩ := h.pending_held u hleft hnone.1
    exact ⟨i, job, (hheld i).trans hi, heq⟩

/-! ### Every step -/

/-- What callers and the monitor do keeps track, unless it concerns the queue or the ledger. -/
theorem others (h : Tracked tasks p) (hroster : Roster p) {e : Event α} (hm : Moves p e q)
    (he : e.byWorker = false) (hqueue : q.queue = p.queue) (hledger : q.ledger = p.ledger) :
    Tracked tasks q := by
  have hahead (i : Nat) :
      q.view Stage.ahead? i = p.view Stage.ahead? i := hroster.view_move hm he rfl rfl i
  have hbehind (i : Nat) :
      q.view Stage.behind? i = p.view Stage.behind? i := hroster.view_move hm he rfl rfl i
  exact h.carry hqueue hledger (fun i => hroster.view_move hm he rfl rfl i) (fun i _ hi =>
    hahead i ▸ hi)
    fun i _ hi => hbehind i ▸ hi

/-- Every step but a submission keeps the tasks tracked. The moves that matter are `take`, which
hands the first job of the queue to a worker, the ones that store a result, and `cancel` and `shut`,
which flush the queue. -/
theorem move (h : Tracked tasks p) (hroster : Roster p) {e : Event α} (hm : Moves p e q)
    (hnew : e.submission? = none) : Tracked tasks q := by
  have others := h.others hroster hm
  cases hm with
  | enqueue => cases hnew
  | number | startLate | startFails | start | drain | markUnstarted | markRunning | markLate
  | collect | concludeSame | conclude | survey | lookIdle | readQueued | readCompleted
  | readFailed =>
    exact others rfl rfl rfl
  | look _ hresize => cases hresize <;> exact others rfl rfl rfl
  | cancel => exact h.flush _ rfl rfl (fun _ => rfl) (fun _ => rfl) fun _ => rfl
  | retire hat | depart hat =>
    exact (h.setStage hat .leaving rfl (.inl rfl) (.inl rfl)).carry rfl rfl (fun _ =>
      rfl) (fun _ _ => id) fun _ _ => id
  | take hat _ hqueue => exact h.take hat hqueue
  | begin hat => exact h.setStage hat _ rfl (.inl rfl) (.inl rfl)
  | beginFails hat => exact h.setStage hat _ rfl (.inr rfl) (.inl rfl)
  | finishFails hat => exact h.setStage hat _ rfl (.inl rfl) (.inr rfl)
  | @run _ job watch hat =>
    have hnone : p.result? job.ticket = none := h.ahead_pending _ job (view_of_stage hat)
    refine h.settle hat rfl job.outcome (.ran job watch) (.inl rfl) rfl fun job' hjob' => ?_
    cases hjob'
    exact ⟨rfl, hnone, rfl⟩
  | finish hat => exact (h.finish hat).carry rfl rfl (fun _ => rfl) (fun _ _ => id) fun _ _ => id
  | count hat | countFailed hat =>
    exact (h.setStage hat .free rfl (.inl rfl) (.inl rfl)).carry rfl rfl (fun _ => rfl) (fun _ _ =>
      id)
      fun _ _ => id
  | countFailing hat =>
    exact (h.setStage hat (.counted _) rfl (.inl rfl) (.inl rfl)).carry rfl rfl (fun _ => rfl)
      (fun _ _ => id) fun _ _ => id
  | shut hat =>
    exact h.flush _ rfl rfl (view_setStage_same hat rfl) (view_setStage_same hat rfl)
      (view_setStage_same hat rfl)
  | shutAgain hat | yield hat =>
    exact (h.setStage hat (.abandoning _ _) rfl (.inl rfl) (.inl rfl)).carry rfl rfl (fun _ =>
      rfl) (fun _ _ => id)
      fun _ _ => id
  | abandon hat => exact h.settle hat rfl _ .leaving (.inr rfl) rfl nofun
  | leave hat | leaveLast hat =>
    exact (h.setStage hat .gone rfl (.inl rfl) (.inl rfl)).carry rfl rfl (fun _ => rfl) (fun _ _ =>
      id) fun _ _ => id

end Tracked

theorem tracked_create (config : Config) (now : Int) : Tracked [] (create (α := α) config now) := by
  have hnobody (f : Stage α → Option (Job α)) (i : Nat) : (create config now).view f i = none := rfl
  refine ⟨rfl, Nat.le_refl 0, rfl, nofun, nofun, ?_, ?_, ?_, ?_, ?_, nofun⟩ <;>
    · intro i
      simp [held, hnobody]

/-- Every run keeps track of the tasks it handed in: ticket `t` belongs to the task at position `t`
of `submissions es`. -/
theorem tracked_of_steps {config : Config} {now : Int} {es : List (Event α)} {p : Pool α}
    (h : (create config now).steps es = some p) : Tracked (submissions es) p := by
  induction h using steps_induction with
  | nil => exact tracked_create config now
  | snoc es p e q hrun hstep ih =>
    rw [submissions_snoc]
    have hm := moves_of_step hstep
    cases e with
    | enqueue index body => cases hm; exact ih.enqueue index body
    | _ =>
      rw [show Event.submission? _ = none from rfl, Option.toList_none, List.append_nil]
      exact ih.move (roster_of_steps hrun) hm rfl

end Headroom.Pool
