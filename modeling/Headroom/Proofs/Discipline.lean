import Headroom.Proofs.Settlement
import Headroom.Proofs.Submission

/-!
# The discipline of the queue

Every job that enters the queue leaves it in one of two ways: a worker takes it, or it gets its
result while it still waits. `claimed` and `lost` are the jobs of a run that left in either way, in
the order in which they did.

* **`Moves.conserves`**: what a step finds in the queue and what enters it is what it takes from the
  front, what it loses and what it leaves.
* **`InOrder`**: so the jobs that were handed in are those that were claimed, then those that were
  lost, then those that wait. Nothing is claimed after something was lost, because the queue is
  closed and empty by then.
* **`queue_discipline`**: this for every run, with the bound and the published length of the queue,
  and with what a submission that fails leaves behind.
-/

namespace Headroom.Pool

variable {α : Type}

/-! ## What is seen along a run -/

section

variable {γ : Type}

/-- What `f` sees at the steps of a run, in order. What is claimed, lost and mailed in a run are
cases of it. -/
def along (f : Pool α → Event α → Pool α → List γ) (p : Pool α) : List (Event α) → List γ
  | [] => []
  | e :: es =>
    match p.step e with
    | none => []
    | some q => f p e q ++ q.along f es

variable {f : Pool α → Event α → Pool α → List γ} {start p q : Pool α} {es : List (Event α)}

theorem along_append (h : start.steps es = some p) (fs : List (Event α)) :
    start.along f (es ++ fs) = start.along f es ++ p.along f fs := by
  induction es generalizing start with
  | nil => cases h; rfl
  | cons e es ih =>
    obtain ⟨m, hm, hrest⟩ := Option.bind_eq_some_iff.mp h
    simp only [List.cons_append, along, hm, ih hrest, List.append_assoc]

theorem along_snoc {e : Event α} (h : start.steps es = some p) (hstep : p.step e = some q) :
    start.along f (es ++ [e]) = start.along f es ++ f p e q := by
  rw [along_append h]
  simp [along, hstep]

/-- What is seen `along` a run is seen at one of its steps, in the pools before and after
that step. -/
theorem mem_along (h : start.steps es = some p) {x : γ} :
    x ∈ start.along f es ↔ ∃ i q e r, During start es i q e ∧ q.step e = some r ∧ x ∈ f q e r := by
  induction h using steps_induction with
  | nil => simp [along, During]
  | snoc es m e r hrun hstep ih =>
    rw [along_snoc hrun hstep, List.mem_append, ih]
    constructor
    · rintro (⟨i, q, e', r', hd, hrest⟩ | hx)
      · exact ⟨i, q, e', r', hd.append _, hrest⟩
      · exact ⟨_, m, e, r, .last hrun e, hstep, hx⟩
    · rintro ⟨i, q, e', r', hd, hstep', hx⟩
      rcases during_snoc.mp hd with hd | ⟨_, hq, rfl⟩
      · exact .inl ⟨i, q, e', r', hd, hstep', hx⟩
      · cases hrun.symm.trans hq
        cases hstep.symm.trans hstep'
        exact .inr hx

end

/-- The job that a worker takes: the one that it has in hand once it was at the queue. -/
def claimedBy (_ : Pool α) (e : Event α) (q : Pool α) : List (Job α) :=
  match e with
  | .work id .claim => (q.held id).toList
  | _ => []

/-- The jobs that get their result while they wait: those of the queue before the step that have one
after it. -/
def lostBy (p : Pool α) (_ : Event α) (q : Pool α) : List (Job α) :=
  p.queue.filter fun job => (q.result? job.ticket).isSome

/-- The jobs that workers take in a run, in the order in which they do. -/
def claimed (p : Pool α) (es : List (Event α)) : List (Job α) := p.along claimedBy es

/-- The jobs that get their result in a run without having been taken. -/
def lost (p : Pool α) (es : List (Event α)) : List (Job α) := p.along lostBy es

/-- The jobs that tasks become, in the order in which they are handed in: each has its position as
its ticket. -/
def jobs (tasks : List (Nat × Result α)) : List (Job α) :=
  tasks.mapIdx fun t task => ⟨t, task.1, task.2⟩

/-- The job that enters the queue when `n` were accepted before. -/
def Event.entering (n : Nat) (e : Event α) : List (Job α) :=
  e.submission?.toList.map fun task => ⟨n, task.1, task.2⟩

theorem jobs_submissions_snoc (es : List (Event α)) (e : Event α) :
    jobs (submissions (es ++ [e])) = jobs (submissions es) ++
      e.entering (submissions es).length := by
  rw [submissions_snoc, Event.entering]
  cases e.submission? <;> simp [jobs]

/-! ## One step -/

section

variable {tasks : List (Nat × Result α)} {p q : Pool α} {e : Event α}

/-- A ticket that waits gets its result (`Settles`) only when the whole queue is emptied, by a
shutdown that does not wait or by the first worker that fails. -/
theorem Settles.of_waiting (h : Tracked tasks p) {t : Nat} {r : Result α} (hs : Settles p e t r)
    (ht : t ∈ p.queue.map Job.ticket) :
    e = .close false ∨
      ∃ id job what, e = .work id .shut ∧ p.stage? id = some (.broken job what) ∧
        p.failure = none := by
  have nobody {id : Nat} {job : Job α} (hheld : p.held id = some job) :
      job.ticket ∉ p.queue.map Job.ticket := by
    intro hmem
    have := h.held_departed id job hheld
    have := ((h.mem_queue _).mp hmem).1
    omega
  cases hs with
  | ran hat => exact absurd ht (nobody (view_of_stage hat))
  | cancelled => exact .inl rfl
  | orphaned hat hfirst => exact .inr ⟨_, _, _, rfl, hat, hfirst⟩
  | givenUp hat => exact absurd ht (nobody (view_of_stage hat))

theorem mem_lostBy (h : Tracked tasks p) (hm : Moves p e q) {job : Job α} :
    job ∈ lostBy p e q ↔ job ∈ p.queue ∧ ∃ r, Settles p e job.ticket r := by
  refine List.mem_filter.trans (and_congr_right fun hjob => ?_)
  simp only [Option.isSome_iff_exists, result?_step h hm, h.queued_pending job hjob, reduceCtorEq,
    false_or]

/-- If every ticket that waits is settled by a step (`Settles`), all jobs of the queue are lost by
it. -/
theorem lostBy_all (h : Tracked tasks p) (hm : Moves p e q)
    (hs : ∀ t ∈ p.queue.map Job.ticket, ∃ r, Settles p e t r) : lostBy p e q = p.queue := by
  refine List.filter_eq_self.mpr fun job hjob => ?_
  have hlost := (mem_lostBy h hm).mpr ⟨hjob, hs job.ticket (List.mem_map_of_mem hjob)⟩
  exact (List.mem_filter.mp hlost).2

theorem lostBy_none (h : Tracked tasks p) (hm : Moves p e q) (hclose : e ≠ .close false)
    (hshut : ∀ id, e = .work id .shut → p.failure ≠ none) : lostBy p e q = [] := by
  refine List.eq_nil_iff_forall_not_mem.mpr fun job hjob => ?_
  obtain ⟨hwaits, r, hs⟩ := (mem_lostBy h hm).mp hjob
  rcases hs.of_waiting h (List.mem_map_of_mem hwaits) with he | ⟨id, _, _, he, _, hfirst⟩
  · exact hclose he
  · exact hshut id he hfirst

theorem closed_of_lostBy (h : Tracked tasks p) (hm : Moves p e q) (hsome : lostBy p e q ≠ []) :
    q.closing = true ∧ q.queue = [] := by
  obtain ⟨job, hjob⟩ := List.exists_mem_of_ne_nil _ hsome
  obtain ⟨hwaits, r, hs⟩ := (mem_lostBy h hm).mp hjob
  rcases hs.of_waiting h (List.mem_map_of_mem hwaits) with rfl | ⟨id, _, _, rfl, _, hfirst⟩
  · cases hm
    exact ⟨rfl, rfl⟩
  · cases hm with
    | shut => exact ⟨rfl, rfl⟩
    | shutAgain _ hagain => rw [hfirst] at hagain; cases hagain

/-- **Nothing gets lost between the hands.** What waits and what enters is what a worker takes
(`claimedBy`), what gets its result (`lostBy`) and what still waits, in this order. -/
theorem Moves.conserves (hm : Moves p e q) (h : Tracked tasks p) :
    p.queue ++ e.entering p.accepted = claimedBy p e q ++ lostBy p e q ++ q.queue := by
  -- a step that is neither a claim nor one that empties the queue
  have quiet (hclaimed : claimedBy p e q = []) (hclose : e ≠ .close false)
      (hshut : ∀ id, e = .work id .shut → p.failure ≠ none)
      (hqueue : q.queue = p.queue ++ e.entering p.accepted) :
      p.queue ++ e.entering p.accepted = claimedBy p e q ++ lostBy p e q ++ q.queue := by
    rw [hclaimed, lostBy_none h hm hclose hshut, hqueue]
    rfl
  have empties (hclaimed : claimedBy p e q = []) (hnew : e.entering p.accepted = [])
      (hs : ∀ t ∈ p.queue.map Job.ticket, ∃ r, Settles p e t r) (hqueue : q.queue = []) :
      p.queue ++ e.entering p.accepted = claimedBy p e q ++ lostBy p e q ++ q.queue := by
    rw [hclaimed, hnew, lostBy_all h hm hs, hqueue]
    rfl
  have hclaim {id : Nat} {t : Stage α} (hat : p.stage? id = some t) (s : Stage α) :
      (p.setStage id s).held id = s.job? := by rw [held, view_setStage hat, if_pos rfl]
  cases hm with
  | enqueue => exact quiet rfl (by simp) (by simp) rfl
  | cancel => exact empties rfl rfl (fun t ht => ⟨_, .cancelled ht⟩) rfl
  | shut hat hfirst => exact empties rfl rfl (fun t ht => ⟨_, .orphaned hat hfirst ht⟩) rfl
  | shutAgain hat hagain =>
    refine quiet rfl (by simp) (fun _ _ hnone => ?_) (List.append_nil _).symm
    rw [hnone] at hagain
    cases hagain
  | retire hat =>
    exact quiet (congrArg Option.toList (hclaim hat .leaving)) (by simp) (by simp)
      (List.append_nil _).symm
  | depart hat =>
    exact quiet (congrArg Option.toList (hclaim hat .leaving)) (by simp) (by simp)
      (List.append_nil _).symm
  | @take id job rest hat hret hqueue =>
    have hclaimed := congrArg Option.toList (hclaim hat (.claimed job))
    have hlost := lostBy_none h (.take hat hret hqueue) (by simp) (by simp)
    rw [hlost, hqueue]
    exact (List.append_nil _).trans (congrArg (· ++ [] ++ rest) hclaimed.symm)
  | look _ hresize => cases hresize <;> exact quiet rfl (by simp) (by simp) (List.append_nil _).symm
  | _ => exact quiet rfl (by simp) (by simp) (List.append_nil _).symm

/-- The bound and the published length of the queue: it never holds more than there is room for, and
`queued` is its length. -/
structure Metered (p : Pool α) : Prop where
  queued : p.queued = p.queue.length
  bounded : 0 < p.config.queueCapacity → p.queue.length ≤ p.config.queueCapacity

theorem Metered.move (h : Metered p) (hm : Moves p e q) : Metered q := by
  have shorter (hqueued : q.queued = q.queue.length) (hle : q.queue.length ≤ p.queue.length) :
      Metered q := by
    refine ⟨hqueued, fun hpos => ?_⟩
    rw [hm.config] at hpos ⊢
    exact Nat.le_trans hle (h.bounded hpos)
  cases hm with
  | enqueue _ hroom =>
    refine ⟨by simp [Pool.enqueue], fun (hpos : 0 < p.config.queueCapacity) => ?_⟩
    have hshort : p.queue.length < p.config.queueCapacity := by simpa [full, hpos] using hroom
    simpa [Pool.enqueue] using Nat.succ_le_of_lt hshort
  | cancel | shut => exact shorter rfl (Nat.zero_le _)
  | take _ _ hqueue => exact shorter rfl (by rw [hqueue]; exact Nat.le_succ _)
  | look _ hresize => cases hresize <;> exact shorter h.queued (Nat.le_refl _)
  | _ => exact shorter h.queued (Nat.le_refl _)

end

/-! ## Every run -/

/-- The jobs of a run: first those that were claimed, then those that were lost, then those that
wait. Once one is lost, the queue is closed and empty. -/
structure InOrder (all claimed lost : List (Job α)) (p : Pool α) : Prop where
  order : all = claimed ++ lost ++ p.queue
  ended : lost ≠ [] → p.closing = true ∧ p.queue = []
  held : ∀ i job, p.held i = some job → job ∈ claimed

/-- One step keeps the order, by `Moves.conserves`; nothing is claimed after something was lost. -/
theorem InOrder.move {tasks : List (Nat × Result α)} {all claimed lost : List (Job α)}
    {p q : Pool α} {e : Event α} (h : InOrder all claimed lost p) (htracked : Tracked tasks p)
    (hroster : Roster p) (hsealed : Sealed p) (hm : Moves p e q) :
    InOrder (all ++ e.entering p.accepted) (claimed ++ claimedBy p e q)
      (lost ++ lostBy p e q) q := by
  have hconserves := hm.conserves htracked
  refine ⟨?_, fun hsome => ?_, fun i job hi => ?_⟩
  · by_cases hlost : lost = []
    · rw [h.order, hlost, List.append_nil, List.nil_append, List.append_assoc, hconserves]
      simp only [List.append_assoc]
    · -- nothing enters, so nothing can be taken or lost any more
      obtain ⟨hclosing, hqueue⟩ := h.ended hlost
      obtain ⟨_, hnew, _⟩ := hm.closed hsealed hclosing
      have hnone : e.entering p.accepted = [] := by rw [Event.entering, hnew]; rfl
      rw [hqueue, hnone] at hconserves
      obtain ⟨htaken, hleft⟩ := List.append_eq_nil_iff.mp hconserves.symm
      obtain ⟨hclaimed, hmore⟩ := List.append_eq_nil_iff.mp htaken
      rw [h.order, hnone, hclaimed, hmore, hqueue, hleft]
      simp only [List.append_nil]
  · by_cases hlost : lost = []
    · rw [hlost] at hsome
      exact closed_of_lostBy htracked hm hsome
    · obtain ⟨hclosing, hqueue⟩ := h.ended hlost
      obtain ⟨hstays, _, hempty⟩ := hm.closed hsealed hclosing
      exact ⟨hstays, hempty hqueue⟩
  · -- a worker holds what it held before, or what it takes with this step
    rcases hm.held_before hroster hi with hold | ⟨rfl, _⟩
    · exact List.mem_append_left _ (h.held i job hold)
    · exact List.mem_append_right _ (by simp [claimedBy, hi])

section

variable {config : Config} {now : Int} {es : List (Event α)} {p : Pool α}

theorem inOrder_of_steps (h : (create config now).steps es = some p) :
    InOrder (jobs (submissions es)) ((create config now).claimed es)
      ((create config now).lost es) p := by
  induction h using steps_induction with
  | nil => exact ⟨rfl, fun hsome => absurd rfl hsome, fun i job hi => nomatch hi⟩
  | snoc es p e q hrun hstep ih =>
    have htracked := tracked_of_steps hrun
    rw [claimed, lost, along_snoc hrun hstep, along_snoc hrun hstep, jobs_submissions_snoc,
      ← htracked.accepted]
    exact ih.move htracked (roster_of_steps hrun) (sealed_of_steps hrun) (moves_of_step hstep)

theorem metered_of_steps (h : (create config now).steps es = some p) : Metered p := by
  induction h using steps_induction with
  | nil => exact ⟨rfl, fun _ => Nat.zero_le _⟩
  | snoc es p e q hrun hstep ih => exact ih.move (moves_of_step hstep)

/-- The jobs that are `lost` are those that a shutdown or the first failing worker finds in the
queue. -/
theorem mem_lost (h : (create config now).steps es = some p) {t : Nat} :
    t ∈ ((create config now).lost es).map Job.ticket ↔
      Dropped (create config now) es t ∨ ∃ what, Orphaned (create config now) es t what := by
  constructor
  · intro ht
    obtain ⟨job, hjob, rfl⟩ := List.mem_map.mp ht
    obtain ⟨i, q, e, r, hd, hstep, hlost⟩ := (mem_along h).mp hjob
    have htracked := tracked_of_steps hd.1
    obtain ⟨hwaits, r, hs⟩ := (mem_lostBy htracked (moves_of_step hstep)).mp hlost
    have hmem := List.mem_map_of_mem (f := Job.ticket) hwaits
    rcases hs.of_waiting htracked hmem with rfl | ⟨id, job', what, rfl, hat, hfirst⟩
    · exact .inl ⟨i, q, hd, hmem⟩
    · exact .inr ⟨what, i, q, id, job', hd, hat, hfirst, hmem⟩
  · -- both ways to lose a job settle its ticket while it waits
    have found {i : Nat} {q : Pool α} {e : Event α} {r : Result α}
        (hd : During (create config now) es i q e)
          (hmem : t ∈ q.queue.map Job.ticket) (hs : Settles q e t r) :
            t ∈ ((create config now).lost es).map Job.ticket := by
      obtain ⟨m, hstep, _⟩ := hd.next h
      obtain ⟨job, hjob, rfl⟩ := List.mem_map.mp hmem
      have hlost := (mem_lostBy (tracked_of_steps hd.1) (moves_of_step hstep)).mpr ⟨hjob, r, hs⟩
      exact List.mem_map_of_mem ((mem_along h).mpr ⟨i, q, e, m, hd, hstep, hlost⟩)
    rintro (⟨i, q, hd, hmem⟩ | ⟨what, i, q, id, job, hd, hat, hfirst, hmem⟩)
    · exact found hd hmem (.cancelled hmem)
    · exact found hd hmem (.orphaned hat hfirst hmem)

theorem claimed_of_run (h : (create config now).steps es = some p) {i id : Nat} {q : Pool α}
    (hd : During (create config now) es i q (.work id .run)) :
    ∃ job watch, q.stage? id = some (.running job watch) ∧
      job ∈ (create config now).claimed es := by
  obtain ⟨r, hstep, _⟩ := hd.next h
  cases moves_of_step hstep with
  | @run _ job watch hat =>
    have hearlier := (inOrder_of_steps hd.1).held id job (view_of_stage hat)
    refine ⟨job, watch, hat, ?_⟩
    rw [claimed, ← List.take_append_drop i es, along_append hd.1]
    exact List.mem_append_left _ hearlier

theorem Alone.accepted (hrun : (create config now).steps es = some p) {fs : List (Event α)}
    {q : Pool α} (h : Alone p fs q) : q.accepted = p.accepted := by
  have hafter := (tracked_of_steps (steps_trans hrun h.run)).accepted
  rw [submissions_append, h.submissions, List.append_nil] at hafter
  exact hafter.trans (tracked_of_steps hrun).accepted.symm

/-- **The discipline of the queue.** After any run, the tasks that were handed in are those that
workers took (`claimed`), in the order in which they took them, then those that a shutdown cancelled
or a failing worker orphaned (`lost`), then those that wait; and none of them waits once one is
lost. Only the body of a task that a worker took ever runs. The queue keeps its bound, and the
published length is its length. A submission that fails, because it has waited for too long or
because the pool is closed, leaves the pool as it would be without it, but for the index that it
used up (`skip`), and so it stays whatever happens later. -/
theorem queue_discipline (hrun : (create config now).steps es = some p) :
    jobs (submissions es) = (create config now).claimed es ++ (create config now).lost es ++
      p.queue ∧ ((create config now).lost es ≠ [] → p.queue = []) ∧
      (∀ t, t ∈ ((create config now).lost es).map Job.ticket ↔
        Dropped (create config now) es t ∨ ∃ what, Orphaned (create config now) es t what) ∧
      (∀ i q id, During (create config now) es i q (.work id .run) →
        ∃ job watch, q.stage? id = some (.running job watch) ∧
          job ∈ (create config now).claimed es) ∧
      (0 < config.queueCapacity → p.queue.length ≤ config.queueCapacity) ∧
      p.queued = p.queue.length ∧
      (∀ body limitMs fs q f, Submission body limitMs p fs q (.error f) →
        (f.kind = .poolFailure ∨ f.kind = .submissionTimeout) ∧
          ∃ others m, fs = .number :: others ∧ p.steps others = some m ∧
            q = { m with submitted := m.submitted + 1 } ∧
            ∀ more, q.steps more = (m.steps more).map (skip 1)) ∧
      (∀ (s : Simulation α) body plan limitMs f, s.pool = p →
        (s.submit body plan limitMs).2 = .error f →
        (limitMs = none → f.kind ≠ .submissionTimeout) →
          ∃ others m, Alone p others m ∧ m.accepted = p.accepted ∧
            (s.submit body plan limitMs).1.pool = { m with submitted := m.submitted + 1 }) := by
  have hinOrder := inOrder_of_steps hrun
  have hmetered := metered_of_steps hrun
  have hbounded := hmetered.bounded
  rw [config_of_steps hrun] at hbounded
  refine ⟨hinOrder.order, fun hlost => (hinOrder.ended hlost).2, fun t => mem_lost hrun,
    fun i q id hd => claimed_of_run hrun hd, hbounded, hmetered.queued,
      fun body limitMs fs q f hcall => ?_,
    fun s body plan limitMs f hpool hfails hreturns => ?_⟩
  · -- an attempt that fails has taken an index, and nothing else came of it
    obtain ⟨others, m, hfs, hm, rfl⟩ := hcall.without
    exact ⟨hcall.kind_of_error, others, m, hfs, hm, rfl, fun more => steps_skip more 1 m⟩
  · obtain ⟨others, m, halone, hm⟩ := Simulation.submit_without hfails hreturns
    rw [hpool] at halone
    exact ⟨others, m, halone, halone.accepted hrun, hm⟩

end

/-- A shutdown finds one task with the only worker and one in the queue. -/
def cutShort : List (Event Nat) :=
  [.start (fun _ => true) true 0, .enqueue 0 (.ok 7), .work 0 .claim, .enqueue 1 (.ok 8),
    .close false]

theorem queue_discipline_cutShort :
    ∃ p : Pool Nat, (create { minWorkers := 1, maxWorkers := 1, queueCapacity := 1 } 0).steps
      cutShort = some p ∧ jobs (submissions cutShort) = [⟨0, 0, .ok 7⟩] ++ [⟨1, 1, .ok 8⟩] ++
      p.queue ∧ p.queued = p.queue.length := by
  have hrun : ∃ p, (create { minWorkers := 1, maxWorkers := 1, queueCapacity := 1 } 0).steps
    cutShort = some p :=
    ⟨_, rfl⟩
  obtain ⟨p, hrun⟩ := hrun
  obtain ⟨horder, _, _, _, _, hqueued, _⟩ := queue_discipline hrun
  exact ⟨p, hrun, horder, hqueued⟩

/-- A pool that was never started, with one task in a queue that has room for one. -/
def brimful : Pool Nat :=
  (create { minWorkers := 1, maxWorkers := 1, queueCapacity := 1 } 0 |>.skip 1).enqueue 0 (.ok 7)

/-- A submission that waits in vain moves on the counter that the next one takes its index from. -/
theorem refused_submission_takes_index :
    (create { minWorkers := 1, maxWorkers := 1, queueCapacity := 1 } 0).steps [.number,
      .enqueue 0 (.ok 7)]
        = some brimful ∧
      ∃ q f, Submission (.ok 8) (some 0) brimful [.number] q (.error f) ∧
        f.kind = .submissionTimeout ∧
        q.submitted ≠ brimful.submitted := by
  have hwait : (brimful.skip 1).steps [] = some (brimful.skip 1) := rfl
  have hcall : Submission (.ok 8) (some 0) brimful [.number] (brimful.skip 1)
      (.error (.queueFull 1 0)) :=
    .call hwait (.timedOut rfl rfl rfl)
  exact ⟨rfl, _, _, hcall, rfl, by decide⟩

end Headroom.Pool
