import Headroom.Proofs.Gathering
import Headroom.Proofs.Progress

/-!
# Batches in the pool and without it

A batch in a pool that is not shut down and in which no reading fails comes to what the items make
of it one after the other, whatever the number of workers, the room in the queue and the order in
which the items finish.

* **`Maps`**: a batch in the pool, from the first item that is handed in to the last result that is
  read.
* **`Maps.eq_sequential`**: whenever such a batch ends, it has read what its items leave behind
  (`Collects.eq_items`).
* **`maps_sequential`**: it can always end. All its items get into the queue (`Soundly.launch`), and
  when the workers have come to rest all its results are there (`Soundly.yields`).
* **`Simulation.Smooth.map`**: what `Simulation.map` computes, if no task waits at a closed gate.
* **`pool_agrees_with_sequential`** puts these together.
-/

namespace Headroom.Pool

variable {α β : Type}

section

variable {config : Config} {now : Int} {es₀ : List (Event α)} {p : Pool α}

/-! ## Whenever a batch ends -/

/-- No item has another result than what it leaves behind: `Allows` is `Yields` for those tickets
that have a result already. -/
theorem Soundly.allows (h : Soundly (create config now) es₀ p) {ts : List Nat} {first : Nat}
    {bodies : List (Result α)}
    (htasks : Yields (fun t => (submissions es₀)[t]?) ts (itemTasks first bodies)) :
    Allows p.result? ts (itemResults first bodies) := by
  induction ts generalizing first bodies with
  | nil =>
    have hlength := htasks.length
    rw [length_itemTasks] at hlength
    rw [List.eq_nil_of_length_eq_zero hlength.symm]
    exact .nil
  | cons t ts ih =>
    cases bodies with
    | nil => cases htasks
    | cons body rest =>
      rw [itemTasks_cons] at htasks
      obtain ⟨task, tasks, htask, ht, hrest⟩ := yields_cons.mp htasks
      cases htask
      rw [itemResults_cons]
      exact .cons (fun r hr => (h.result hr ht).trans (Job.outcome_eq t first body)) (ih hrest)

/-- What a batch collects in a sound run (`Soundly`) is determined by its items, however far the
reading got. -/
theorem Collects.eq_items (h : Soundly (create config now) es₀ p) {policy : FailurePolicy}
    {ts : List Nat} {es : List (Event α)} {q : Pool α} {r : Result (List α × List (Nat × Fault))}
    (hcollects : Collects policy p ts es q r) (hsound : ∀ e ∈ es, e.Sound) {first : Nat}
    {bodies : List (Result α)}
    (htasks : Yields (fun t => (submissions es₀)[t]?) ts (itemTasks first bodies)) :
    r = tally policy (itemResults first bodies) := by
  have hend := h.trans ⟨hcollects.steps, hsound⟩
  exact hcollects.eq_tally h.run (hend.allows (htasks.mono fun t task => submissions_mono es))

/-- Entering the queue is no shutdown and no reading, so it is sound. -/
theorem Entry.soundly {index : Nat} {body : Result α} {limitMs : Option Int} {m q : Pool α}
    {es : List (Event α)} {outcome : Except Fault Nat}
    (h : Entry index body limitMs m es q outcome) : Soundly m es q := by
  refine ⟨h.steps, ?_⟩
  cases h <;> simp [Event.Sound]

/-- No item of a batch is refused in a run that goes `Soundly`, since only a pool that is closed
refuses. -/
theorem Launch.accepted (h : Soundly (create config now) es₀ p) {first : Nat}
    {bodies : List (Result α)} {es : List (Event α)} {q : Pool α}
    {outcome : Except Fault (List Nat)} (hlaunch : Launch first bodies p es q outcome)
    (hsound : ∀ e ∈ es, e.Sound) : ∃ tickets, outcome = .ok tickets := by
  induction hlaunch generalizing es₀ with
  | done => exact ⟨[], rfl⟩
  | item hwait hentry _ ih =>
    obtain ⟨hfirst, hlater⟩ := List.forall_mem_append.mp hsound
    have hbefore := h.trans ⟨hwait, (List.forall_mem_append.mp hfirst).1⟩
    obtain ⟨tickets, rfl⟩ := ih (hbefore.trans hentry.soundly) hlater
    exact ⟨_, rfl⟩
  | refused hwait hentry =>
    have hopen := (h.trans ⟨hwait, (List.forall_mem_append.mp hsound).1⟩).accepting
    cases hentry with
    | refused hclosed => cases hopen.symm.trans hclosed
    | timedOut hlimit => cases hlimit

/-! ## That it ends -/

theorem full_of_empty {p : Pool α} (h : p.queue = []) : p.full = false := by
  simp only [full, h, List.length_nil]
  cases hcapacity : p.config.queueCapacity <;> simp

section

variable (hmin : 1 ≤ config.minWorkers) (hmax : config.minWorkers ≤ config.maxWorkers)
include hmin hmax

/-- When the workers are `Still`, there is room in the queue and every ticket has its result. A pool
that runs has a worker in its loop, and such a worker would not rest with a job waiting. -/
theorem Soundly.done_of_still (h : Soundly (create config now) es₀ p)
    (hphase : p.phase = .running) (hstill : Still p) :
    p.accepting = true ∧ p.full = false ∧ ∀ t < p.accepted, (p.result? t).isSome := by
  obtain ⟨hqueue, hsettled⟩ := h.settled_of_idle hmin hmax hphase (h.idle_of_still hstill)
  exact ⟨h.accepting, full_of_empty hqueue, hsettled⟩

/-- A batch can be handed in as a whole. Where the queue is full, the workers are let run until they
are `Still`. -/
theorem Soundly.launch (h : Soundly (create config now) es₀ p) (hphase : p.phase = .running)
    (first : Nat) (bodies : List (Result α)) :
    ∃ es q tickets, (∀ e ∈ es, e.Sound) ∧ Launch first bodies p es q (.ok tickets) := by
  induction bodies generalizing es₀ p first with
  | nil => exact ⟨[], p, [], by simp, .done first p⟩
  | cons body rest ih =>
    -- each item lets the workers come to rest first, so there is room for it
    obtain ⟨es, m, hwait, _, hstill⟩ := h.comes_to_rest
    obtain ⟨hopen, hroom, _⟩ := (h.trans hwait).done_of_still hmin hmax (h.running hphase hwait)
      hstill
    have hentry : Entry first body none m [.enqueue first body] (m.enqueue first body)
        (.ok m.accepted) :=
      .accepted hopen hroom
    have hthen := hwait.trans hentry.soundly
    obtain ⟨fs, q, tickets, hsound, hlaunch⟩ :=
      ih (h.trans hthen) (h.running hphase hthen) (first + 1)
    exact ⟨_, q, _, List.forall_mem_append.mpr ⟨hthen.sound, hsound⟩,
      .item hwait.run hentry hlaunch⟩

end

/-- When every ticket has its result, those of a batch are `itemResults`, what its items leave
behind, each under its own position. -/
theorem Soundly.yields (h : Soundly (create config now) es₀ p)
    (hsettled : ∀ t < p.accepted, (p.result? t).isSome) {ts : List Nat} {first : Nat}
    {bodies : List (Result α)}
    (htasks : Yields (fun t => (submissions es₀)[t]?) ts (itemTasks first bodies)) :
    Yields p.result? ts (itemResults first bodies) := by
  refine (h.allows htasks).yields fun t ht => hsettled t ?_
  obtain ⟨task, htask⟩ := htasks.exists ht
  rw [(tracked_of_steps h.run).accepted]
  exact (List.getElem?_eq_some_iff.mp htask).1

/-! ## The whole call -/

/-- A batch in the pool, and all that happens meanwhile: its items are handed in, `Launch`, and
their results gathered, `Gathers`. Other callers may do what they like in between. -/
inductive Maps (policy : FailurePolicy) (bodies : List (Result α)) (p : Pool α) :
    List (Event α) → Pool α → Result (List α) → Prop
  | gathered {es fs : List (Event α)} {m z : Pool α} {tickets : List Nat} {r : Result (List α)}
      (hlaunch : Launch 0 bodies p es m (.ok tickets))
      (hgathers : Gathers policy m tickets fs z r) :
      Maps policy bodies p (es ++ fs) z r
  | refused {es : List (Event α)} {m : Pool α} {f : Fault}
      (hlaunch : Launch 0 bodies p es m (.error f)) :
      Maps policy bodies p es m (.error f)

section

variable {policy : FailurePolicy} (hpolicy : policy ≠ .unknown)
  (h : Soundly (create config now) es₀ p)
include hpolicy h

/-- Whatever a batch ends with (`Maps`), it is what the items come to one after the other. -/
theorem Maps.eq_sequential {fn : β → Result α} {items : List β} {es : List (Event α)} {z : Pool α}
    {r : Result (List α)} (hmaps : Maps policy (items.map fn) p es z r)
    (hsound : ∀ e ∈ es, e.Sound) : r = sequential policy fn items := by
  cases hmaps with
  | refused hlaunch =>
    obtain ⟨_, hok⟩ := hlaunch.accepted h hsound
    cases hok
  | gathered hlaunch hgathers =>
    obtain ⟨counts, hcollects, rfl⟩ := hgathers
    have htasks := hlaunch.tasks h.run
    obtain ⟨hfirst, hlater⟩ := List.forall_mem_append.mp hsound
    have hcounts := hcollects.eq_items (h.trans ⟨hlaunch.steps, hfirst⟩) hlater htasks
    have hlength := htasks.length
    rw [length_itemTasks] at hlength
    rw [hcounts, sequential_eq_gather hpolicy, gather_eq_report, length_itemResults, hlength]

/-- A batch can come to its end in every running pool, which makes the statement above about
something. -/
theorem maps_sequential (hmin : 1 ≤ config.minWorkers)
    (hmax : config.minWorkers ≤ config.maxWorkers) (hphase : p.phase = .running)
    (fn : β → Result α) (items : List β) :
    ∃ es z, (∀ e ∈ es, e.Sound) ∧
      Maps policy (items.map fn) p es z (sequential policy fn items) := by
  obtain ⟨es, m, tickets, hsound, hlaunch⟩ := h.launch hmin hmax hphase 0 (items.map fn)
  have hin : Soundly p es m := ⟨hlaunch.steps, hsound⟩
  obtain ⟨fs, z, hrest, _, hstill⟩ := (h.trans hin).comes_to_rest
  have hend := (h.trans hin).trans hrest
  obtain ⟨_, _, hsettled⟩ := hend.done_of_still hmin hmax (h.running hphase (hin.trans hrest))
    hstill
  have hyields := hend.yields hsettled ((hlaunch.tasks h.run).mono fun t task =>
    submissions_mono fs)
  refine ⟨es ++ fs, z, (hin.trans hrest).sound, .gathered hlaunch ?_⟩
  rw [gathers_iff (h.trans hin).run hrest.run hyields, sequential_eq_gather hpolicy]

end

end

end Headroom.Pool

/-! ## Simulated batches -/

namespace Headroom

def Meter.Mode.Steady : Meter.Mode → Prop
  | .fails | .failsForeign => False
  | _ => True

/-- A counter that answers every reading, whatever mode it is in. -/
def Meter.Steady : Meter → Prop
  | .scripted mode => mode.Steady
  | .source _ => True

theorem Meter.Steady.read {m : Meter} (h : m.Steady) (host : Host) (used : Int) :
    ∃ cpu, m.read host used = .ok cpu := by
  cases m with
  | source s => exact ⟨_, rfl⟩
  | scripted mode =>
    cases mode with
    | ok | silent => exact ⟨_, rfl⟩
    | fails | failsForeign => exact h.elim

theorem Meter.Steady.follow {m : Meter} {mode : Mode} (h : m.Steady) (hmode : mode.Steady) :
    (m.follow mode).Steady := by
  cases m with
  | source s => exact h
  | scripted old => exact hmode

namespace Simulation

open Pool

variable {α : Type}

/-- A task that does not wait at a closed gate and leaves the counter in order. -/
structure Plan.Smooth (gates : List Bytes) (plan : Plan) : Prop where
  passes : plan.gate.all gates.contains = true
  steady : ∀ mode, plan.mode = some mode → mode.Steady

/-- No task waits at a closed gate, and no reading fails. It is kept by everything that a simulation
does by itself, so workers always come to rest with nothing left to do. -/
structure Smooth (gates : List Bytes) (s : Simulation α) : Prop where
  meter : s.meter.Steady
  plans : ∀ plan ∈ s.plans, plan.Smooth gates
  gates : s.gates = gates

theorem pool_obey (w : Worker α) (s : Simulation α) : (s.obey w).pool = s.pool := by
  rw [obey]
  split <;> rfl

theorem looksForRoom_of_admits (deadline : Option Int) (fuel : Nat) {s : Simulation α}
    (h : s.admits = true) :
    s.looksForRoom deadline fuel = s := by
  cases fuel with
  | zero => rfl
  | succ fuel => rw [looksForRoom, if_pos h]

/-- What a worker can do next leads somewhere: `nextAction?` proposes only what the pool allows. -/
theorem step_of_nextAction {s : Simulation α} (hroster : Roster s.pool) {w : Worker α}
    (hw : w ∈ s.pool.workers) {action : Action} (hnext : s.nextAction? w = some action) :
    ∃ q, s.pool.step (.work w.id action) = some q := by
  have hat := hroster.stage?_of_mem hw
  have acts (hfree : (Event.work (α := α) w.id action).locks = true → s.pool.draft = none)
      (hwork : (s.pool.work w.id action).isSome = true) :
      ∃ q, s.pool.step (.work w.id action) = some q := by
    obtain ⟨q, hq⟩ := Option.isSome_iff_exists.mp hwork
    exact ⟨q, step_eq_some_iff.mpr ⟨hfree, hq⟩⟩
  have hopen (hlocks : (Event.work (α := α) w.id action).locks = false) :
      (Event.work (α := α) w.id action).locks = true → s.pool.draft = none :=
    fun h => absurd (h.symm.trans hlocks) (by decide)
  cases hstage : w.stage with
  | free =>
    simp only [nextAction?, hstage] at hnext
    split at hnext <;> cases hnext
    next hbusy =>
      exact acts (hopen rfl) (by simp only [work, hat, hstage, if_neg hbusy, Option.isSome_some])
  | running =>
    simp only [nextAction?, hstage] at hnext
    split at hnext <;> cases hnext
    exact acts (hopen rfl) (by simp only [work, hat, hstage, Option.isSome_some])
  | closing | leaving =>
    -- these need the lock, and are put off while somebody holds it
    simp only [nextAction?, hstage] at hnext
    split at hnext <;> cases hnext
    next hfree =>
      exact acts (fun _ => by simpa using hfree)
        (by simp only [work, hat, hstage, Option.isSome_some])
  | gone => simp only [nextAction?, hstage, reduceCtorEq] at hnext
  | claimed | ran | measured | counted | broken | abandoning =>
    simp only [nextAction?, hstage] at hnext
    cases hnext
    exact acts (hopen rfl) (by simp only [work, hat, hstage, Option.isSome_some])

namespace Smooth

variable {gates : List Bytes} {s : Simulation α}

theorem plan (h : Smooth gates s) (job : Job α) : (s.plan job).Smooth gates := by
  rw [Simulation.plan]
  cases hplan : s.plans[job.ticket]? with
  | none => exact ⟨rfl, nofun⟩
  | some plan => exact h.plans plan (Array.mem_of_getElem? hplan)

theorem fire (h : Smooth gates s) (e : Event α) : Smooth gates (s.fire e) := by
  rw [Simulation.fire]
  split <;> exact ⟨h.meter, h.plans, h.gates⟩

theorem obey (h : Smooth gates s) (w : Worker α) : Smooth gates (s.obey w) := by
  rw [Simulation.obey]
  split
  · next job _ _ =>
    refine ⟨?_, h.plans, h.gates⟩
    cases hmode : (s.plan job).mode with
    | none => simpa [hmode] using h.meter
    | some mode => simpa [hmode] using h.meter.follow ((h.plan job).steady mode hmode)
  · exact h

/-! ### At rest -/

theorem sound (h : Smooth gates s) {w : Worker α} {action : Action}
    (hnext : s.nextAction? w = some action) :
    action.Sound := by
  cases hstage : w.stage with
  | free | running | closing | leaving =>
    simp only [nextAction?, hstage] at hnext
    split at hnext <;> cases hnext
    trivial
  | claimed =>
    obtain ⟨cpu, hcpu⟩ := h.meter.read s.host 0
    simp only [nextAction?, hstage, hcpu] at hnext
    cases hnext
    trivial
  | ran job =>
    obtain ⟨cpu, hcpu⟩ := h.meter.read s.host (s.plan job).cpu
    simp only [nextAction?, hstage, hcpu] at hnext
    cases hnext
    trivial
  | gone => simp only [nextAction?, hstage, reduceCtorEq] at hnext
  | measured | counted | broken | abandoning =>
    simp only [nextAction?, hstage] at hnext
    cases hnext
    trivial

/-- One action of a `Smooth` simulation is a sound step of its pool. -/
theorem act (h : Smooth gates s) (hroster : Roster s.pool) {s' : Simulation α}
    (hact : s.act? = some s') :
    Smooth gates s' ∧ ∃ id action, action.Sound ∧ s.pool.step (.work id action) = some s'.pool := by
  obtain ⟨w, hw, hsome⟩ := List.exists_of_findSome?_eq_some hact
  obtain ⟨action, hnext, rfl⟩ := Option.map_eq_some_iff.mp hsome
  obtain ⟨q, hstep⟩ := step_of_nextAction hroster hw hnext
  refine ⟨(h.fire _).obey w, w.id, action, h.sound hnext, ?_⟩
  rw [pool_obey, pool_fire hstep, hstep]

/-- If no worker has anything to do next, all of them are `Idle`: none waits at a gate, and none is
stuck with a reading that failed. -/
theorem idle (h : Smooth gates s) (hsound : ∀ id, s.pool.view Stage.doomed? id = none)
    (hroster : Roster s.pool) (hact : s.act? = none) : Idle s.pool := by
  intro w hw
  have hdoomed := hsound w.id
  rw [view_of_stage (hroster.stage?_of_mem hw)] at hdoomed
  have hnext : s.nextAction? w = none :=
    Option.map_eq_none_iff.mp (List.findSome?_eq_none_iff.mp hact w hw)
  -- only three stages offer nothing to do next: gone, free with nothing to take, held at the exit
  cases hstage : w.stage with
  | gone => exact .inl rfl
  | free =>
    simp only [nextAction?, hstage] at hnext
    split at hnext
    · next hquiet => exact .inr (.inl ⟨rfl, hquiet⟩)
    · cases hnext
  | leaving =>
    simp only [nextAction?, hstage] at hnext
    split at hnext
    · next hheld => exact .inr (.inr ⟨rfl, hheld⟩)
    · cases hnext
  | running job =>
    -- the gates are such that the job passes, so its worker would run it
    have hpasses : s.passes job = true := by
      rw [passes, h.gates]
      exact (h.plan job).passes
    simp only [nextAction?, hstage, hpasses, ite_true, reduceCtorEq] at hnext
  | broken | closing | abandoning =>
    -- at these stages a worker is about to give up its job, which `hsound` excludes
    rw [hstage] at hdoomed
    cases hdoomed
  | claimed | ran | measured | counted => simp only [nextAction?, hstage, reduceCtorEq] at hnext

section

variable {config : Config} {now : Int} {es₀ : List (Event α)}

/-- With enough fuel a smooth simulation comes to rest. Each action uses up some of the pool's
`effort`, and nothing comes in. -/
theorem actFor (h : Smooth gates s) (hrun : Soundly (Pool.create config now) es₀ s.pool)
    {fuel : Nat} (hfuel : s.pool.effort ≤ fuel) :
    Smooth gates (s.actFor fuel) ∧ Idle (s.actFor fuel).pool ∧
    ∃ es, Soundly s.pool es (s.actFor fuel).pool := by
  -- every action leaves less to do, so the fuel lasts until nobody can act
  induction fuel generalizing s es₀ with
  | zero =>
    refine ⟨h, ?_, [], .refl s.pool⟩
    cases hact : s.act? with
    | none => exact h.idle hrun.not_doomed (roster_of_steps hrun.run) hact
    | some s' =>
      obtain ⟨_, id, action, _, hstep⟩ := h.act (roster_of_steps hrun.run) hact
      have := (moves_of_step hstep).effort_lt (roster_of_steps hrun.run)
      omega
  | succ fuel ih =>
    rw [Simulation.actFor]
    cases hact : s.act? with
    | none => exact ⟨h, h.idle hrun.not_doomed (roster_of_steps hrun.run) hact, [], .refl s.pool⟩
    | some s' =>
      obtain ⟨h', id, action, hsound, hstep⟩ := h.act (roster_of_steps hrun.run) hact
      have hlt := (moves_of_step hstep).effort_lt (roster_of_steps hrun.run)
      have hone : Soundly s.pool [.work id action] s'.pool := .step hstep hsound
      obtain ⟨hsmooth, hidle, es, hrest⟩ := ih h' (hrun.trans hone) (by omega)
      exact ⟨hsmooth, hidle, _, hone.trans hrest⟩

/-- Workers have enough steps to come to rest: `rest` provides as many as the `effort` of a pool can
be. -/
theorem rest (h : Smooth gates s) (hrun : Soundly (Pool.create config now) es₀ s.pool) :
    Smooth gates s.rest ∧ Idle s.rest.pool ∧ ∃ es, Soundly s.pool es s.rest.pool := by
  refine h.actFor hrun ?_
  have := s.pool.effort_le
  omega

/-! ### Batches -/

variable (hmin : 1 ≤ config.minWorkers) (hmax : config.minWorkers ≤ config.maxWorkers)
include hmin hmax

/-- An item finds room, at the latest when the workers have come to rest. -/
theorem enqueue (h : Smooth gates s) (hrun : Soundly (Pool.create config now) es₀ s.pool)
    (hphase : s.pool.phase = .running) {plan : Plan} (hplan : plan.Smooth gates) (index : Nat)
    (body : Result α) :
    ∃ s' t es m, s.enqueue index body plan none = (s', .ok t) ∧ Smooth gates s' ∧
      Soundly s.pool es m ∧ Entry index body none m [.enqueue index body] s'.pool (.ok t) := by
  -- who has to wait lets the workers come to rest, and need not look any further
  have hdoor : ∃ d es, (if s.admits then s else s.awaitRoom none) = d ∧ Smooth gates d ∧
      Soundly s.pool es d.pool ∧
        d.pool.full = false := by
    cases hadmits : s.admits with
    | true =>
      have hroom : s.pool.full = false := by simpa [admits, hrun.accepting] using hadmits
      exact ⟨s, [], rfl, h, .refl s.pool, hroom⟩
    | false =>
      obtain ⟨hsmooth, hidle, es, hrest⟩ := h.rest hrun
      have hqueue := ((hrun.trans hrest).settled_of_idle hmin hmax (hrun.running hphase hrest)
        hidle).1
      have hroom := full_of_empty hqueue
      have hadmits : s.rest.admits = true := by simp [admits, hroom]
      refine ⟨s.rest, es, ?_, hsmooth, hrest, hroom⟩
      exact looksForRoom_of_admits none _ hadmits
  obtain ⟨d, es, hd, hsmooth, hwait, hroom⟩ := hdoor
  have hopen := (hrun.trans hwait).accepting
  have hentry : Entry index body none d.pool [.enqueue index body] (d.pool.enqueue index body)
      (.ok d.pool.accepted) :=
    .accepted hopen hroom
  rw [← pool_fire (step_enqueue index body hopen hroom)] at hentry
  refine ⟨{ d.fire (.enqueue index body) with plans := d.plans.push plan }, _, es, d.pool, ?_, ?_,
    hwait, hentry⟩
  · simp [Simulation.enqueue, hd, hopen, hroom]
  · refine ⟨(hsmooth.fire _).meter, fun plan' hplan' => ?_, (hsmooth.fire _).gates⟩
    rcases Array.mem_push.mp hplan' with hold | rfl
    · exact hsmooth.plans plan' hold
    · exact hplan

theorem enqueueAll (h : Smooth gates s) (hrun : Soundly (Pool.create config now) es₀ s.pool)
    (hphase : s.pool.phase = .running) {plan : Plan} (hplan : plan.Smooth gates) (first : Nat)
    (bodies : List (Result α)) :
    ∃ s' tickets es, s.enqueueAll plan first bodies = (s', .ok tickets) ∧ Smooth gates s' ∧
      Soundly s.pool es s'.pool ∧ Launch first bodies s.pool es s'.pool (.ok tickets) := by
  induction bodies generalizing s es₀ first with
  | nil => exact ⟨s, [], [], rfl, h, .refl s.pool, .done first s.pool⟩
  | cons body rest ih =>
    obtain ⟨d, t, es, m, henqueue, hsmooth, hwait, hentry⟩ :=
      h.enqueue hmin hmax hrun hphase hplan first body
    have hthen := hwait.trans hentry.soundly
    obtain ⟨s', tickets, fs, hall, hsmooth', hmore, hlaunch⟩ :=
      ih hsmooth (hrun.trans hthen) (hrun.running hphase hthen) (first + 1)
    refine ⟨s', t :: tickets, _, ?_, hsmooth', hthen.trans hmore, .item hwait.run hentry hlaunch⟩
    rw [enqueueAll_of_ok henqueue, hall]
    rfl

/-- **What `map` computes** in a pool that runs smoothly: the outcomes of the items, gathered under
the failure policy of the pool. -/
theorem map (h : Smooth gates s) (hrun : Soundly (Pool.create config now) es₀ s.pool)
    (hphase : s.pool.phase = .running) {plan : Plan} (hplan : plan.Smooth gates)
    (bodies : List (Result α)) :
    (s.map plan bodies).2 = gather config.failurePolicy (itemResults 0 bodies) := by
  obtain ⟨s', tickets, es, hall, hsmooth, hmore, hlaunch⟩ :=
    h.enqueueAll hmin hmax hrun hphase hplan 0 bodies
  obtain ⟨_, hidle, fs, hrest⟩ := hsmooth.rest (hrun.trans hmore)
  have hend := (hrun.trans hmore).trans hrest
  obtain ⟨_, hsettled⟩ := hend.settled_of_idle hmin hmax (hrun.running hphase (hmore.trans hrest))
    hidle
  have htasks := (hlaunch.tasks hrun.run).mono fun t task => submissions_mono fs
  have hyields := hend.yields hsettled htasks
  have hresults := hyields.filterMap_eq
  have houtcomes : s.outcomes plan bodies = (s'.rest, .ok (itemResults 0 bodies)) := by
    rw [outcomes, hall]
    simp [hresults, Except.map]
  rw [map_eq, houtcomes]
  exact congrArg (gather · (itemResults 0 bodies))
    (congrArg Config.failurePolicy (config_of_steps hend.run))

end

end Smooth

/-! ### Batches that have to be worth it -/

section

variable {policy : Veto.Policy Float} {speedup : Option Float} {cliff : Option Int} {plan : Plan}
  {pause : Int} {bodies : List (Result α)} {s : Simulation α}

/-- A batch that is vetoed is done without the pool: `safeMap` falls back to `sequential`, under the
same failure policy. -/
theorem safeMap_of_vetoed
    (hvetoed : (s.judge policy bodies.length speedup cliff).2.approved = false) :
    (s.safeMap policy speedup cliff plan pause bodies).2.2 =
      sequential s.pool.config.failurePolicy id bodies := by
  rw [safeMap]
  simp only [hvetoed]
  rfl

/-- A batch that is approved is done by `map`, in the simulation that the judgement has left. -/
theorem safeMap_of_approved
    (happroved : (s.judge policy bodies.length speedup cliff).2.approved = true) :
    (s.safeMap policy speedup cliff plan pause bodies).2.2 =
      ((s.judge policy bodies.length speedup cliff).1.map plan bodies).2 := by
  rw [safeMap]
  simp only [happroved]
  rfl

theorem Smooth.judge {gates : List Bytes} (h : Smooth gates s) :
    Smooth gates (s.judge policy bodies.length speedup cliff).1 :=
  ⟨h.meter, h.plans, h.gates⟩

end

end Simulation

/-! ## The main statement -/

namespace Pool

variable {α β : Type}

/-- **A batch is worth the same in the pool and without it.** In a running pool that is not shut
down and in which no reading fails (`Soundly`), a batch (`Maps`) ends with what `sequential` makes
of its items one after the other, whatever the workers, the monitor and other callers do meanwhile.
It does end: workers come to rest by themselves (`comes_to_rest`), and then there is room for a
waiting item and every ticket has its result. -/
theorem pool_agrees_with_sequential {config : Config} {now : Int} {es₀ : List (Event α)}
    {p : Pool α} (hmin : 1 ≤ config.minWorkers) (hmax : config.minWorkers ≤ config.maxWorkers)
    (hpolicy : config.failurePolicy ≠ .unknown) (hrun : Soundly (create config now) es₀ p)
    (hphase : p.phase = .running) (fn : β → Result α) (items : List β) {r : Result (List α)}
    (hr : sequential config.failurePolicy fn items = r) :
    -- what it is
    Applied config.failurePolicy fn items r ∧
      (∀ f, r = .error f → ∃ i cause, Known config.failurePolicy fn items f i cause) ∧
      -- that a batch in the pool comes to it, and to nothing else
      (∀ es z r', Maps config.failurePolicy (items.map fn) p es z r' → (∀ e ∈ es, e.Sound) →
        r' = r) ∧
      (∃ es z, (∀ e ∈ es, e.Sound) ∧ Maps config.failurePolicy (items.map fn) p es z r) ∧
      (∀ es q, Soundly p es q →
        (∀ fs z, q.steps fs = some z → (∀ e ∈ fs, e.byWorker = true) → fs.length ≤ q.effort) ∧
        (Still q → q.accepting = true ∧ q.full = false ∧ ∀ t < q.accepted, (q.result? t).isSome)) ∧
      -- that both paths compute it
      ∀ s : Simulation α, s.pool = p →
        (∀ policy speedup cliff plan pause,
          (s.judge policy items.length speedup cliff).2.approved = false →
          (s.safeMap policy speedup cliff plan pause (items.map fn)).2.2 = r) ∧
        ∀ gates plan, s.Smooth gates → plan.Smooth gates →
          (s.map plan (items.map fn)).2 = r ∧
            ∀ policy speedup cliff pause,
              (s.safeMap policy speedup cliff plan pause (items.map fn)).2.2 = r := by
  have happlied := (sequential_iff hpolicy).mp hr
  have hgather : gather config.failurePolicy (itemResults 0 (items.map fn)) = r :=
    (sequential_eq_gather hpolicy fn items).symm.trans hr
  refine ⟨happlied, fun f hf => (hf ▸ happlied).known, fun es z r' hmaps hsound =>
    ?_, ?_, fun es q hmore => ?_, ?_⟩
  · exact (hmaps.eq_sequential hpolicy hrun hsound).trans hr
  · rw [← hr]
    exact maps_sequential hpolicy hrun hmin hmax hphase fn items
  · have hthen := hrun.trans hmore
    refine ⟨fun fs z hfs hworkers => ?_, hthen.done_of_still hmin hmax (hrun.running hphase hmore)⟩
    exact Nat.le_of_add_right_le (length_le_effort hthen.run hfs hworkers)
  · rintro s rfl
    have hvetoed (policy speedup cliff plan pause)
        (h : (s.judge policy items.length speedup cliff).2.approved = false) :
        (s.safeMap policy speedup cliff plan pause (items.map fn)).2.2 = r := by
      rw [← List.length_map fn] at h
      rw [Simulation.safeMap_of_vetoed h, config_of_steps hrun.run, sequential_map]
      exact hr
    refine ⟨hvetoed, fun gates plan hsmooth hplan => ⟨?_, fun policy speedup cliff pause => ?_⟩⟩
    · exact (hsmooth.map hmin hmax hrun hphase hplan _).trans hgather
    · cases hjudged : (s.judge policy items.length speedup cliff).2.approved with
      | false => exact hvetoed policy speedup cliff plan pause hjudged
      | true =>
        rw [← List.length_map fn] at hjudged
        rw [Simulation.safeMap_of_approved hjudged]
        exact (hsmooth.judge.map hmin hmax hrun hphase hplan _).trans hgather

def crew : Config :=
  { minWorkers := 2, maxWorkers := 3, queueCapacity := 1, failurePolicy := .collectAll }

def byZero : Fault := .raised .runtime (text "division by zero")

def invert : Nat → Result Nat
  | 0 => .error byZero
  | n + 1 => .ok (60 / (n + 1))

theorem pool_agrees_with_sequential_crew :
    ∃ p, Soundly (create crew 0) [.start (fun _ => true) true 0] p ∧ p.phase = .running ∧
      ∃ es z, (∀ e ∈ es, e.Sound) ∧
        Maps .collectAll ([5, 0, 2, 0].map invert) p es z
          (.error (.batch [(1, byZero), (3, byZero)] 4)) := by
  have hrun : ∃ p : Pool Nat, Soundly (create crew 0) [.start (fun _ => true) true 0] p ∧
      p.phase = .running :=
    ⟨_, ⟨rfl, by simp [Event.Sound]⟩, rfl⟩
  obtain ⟨p, hrun, hphase⟩ := hrun
  have hagrees := pool_agrees_with_sequential (by decide) (by decide) (by decide) hrun hphase invert
    [5, 0, 2, 0] rfl
  exact ⟨p, hrun, hphase, hagrees.2.2.2.1⟩

end Pool

end Headroom
