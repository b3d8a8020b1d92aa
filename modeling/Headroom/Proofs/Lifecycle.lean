import Headroom.Proofs.Snapshots

/-!
# The life of a pool and the numbers of its snapshots

Phase and snapshot are written in several places: by a start, by a look of the monitor, at two
points of a shutdown and by the last worker that leaves. Whatever the order in which these happen, a
pool goes through its phases in one direction and numbers its snapshots one after the other.

The counters are not read at one moment: a failure may be counted after the finished jobs were read
and before the failed ones are. So a snapshot can have more failed jobs than finished ones, and this
module says exactly when.

* **`Moves.latest_cases`**: a step leaves the latest snapshot as it is or replaces it by one with
  the next number, whose counts are no lower. `Onward` is what follows for runs.
* **`Readings`**: the two moments at which the latest snapshot has read its counts. `dated_of_steps`
  finds them in every run.
* **`Returned`**: a shutdown that waits has returned, with anything else between its steps, calls of
  others included.
* **`Over`**: nobody works in the pool, it takes nothing more, and the latest snapshot counts all.
  `over_of_returned` is where a call ends up, and `Over.move` says that only another look of the
  monitor could change anything to be seen.
* **`snapshots_are_numbered`**: all of it together.
-/

namespace Headroom.Pool

variable {α : Type}

/-! ## Numbers and counts -/

/-- A snapshot that replaces another: the next one, with counts that are no lower. -/
structure Snapshot.Follows (new old : Snapshot) : Prop where
  seq : new.seq = old.seq + 1
  completed : old.completed ≤ new.completed
  failed : old.failed ≤ new.failed

/-- **What a step does to the latest snapshot.** It leaves the snapshot alone, or the next one
`Follows` it. -/
theorem Moves.latest_cases {p q : Pool α} (h : Counted p) {e : Event α} (hm : Moves p e q) :
    q.latest = p.latest ∨ q.latest.Follows p.latest := by
  cases hm with
  | conclude => exact .inr ⟨rfl, h.completedBehind, h.failedBehind⟩
  | readFailed hdraft htally =>
    exact .inr ⟨rfl, (h.drafted _ _ hdraft (by rw [htally]; rfl)).1, h.failedBehind⟩
  | look _ hresize => cases hresize <;> exact .inl rfl
  | markUnstarted | leaveLast => exact .inr ⟨rfl, Nat.le_refl _, Nat.le_refl _⟩
  | _ => exact .inl rfl

/-- What is seen of a pool later on: the phase has not gone back, and a snapshot with the same
number is the same. -/
structure Onward (p q : Pool α) : Prop where
  phase : p.phase.rank ≤ q.phase.rank
  seq : p.latest.seq ≤ q.latest.seq
  same : p.latest.seq = q.latest.seq → p.latest = q.latest
  completed : p.latest.completed ≤ q.latest.completed
  failed : p.latest.failed ≤ q.latest.failed

/-- Whatever happens between two moments of a run, the later pool is `Onward` of the earlier one. -/
theorem onward_of_steps {config : Config} {now : Int} {es₀ es : List (Event α)} {p q : Pool α}
    (hrun : (create config now).steps es₀ = some p) (hmore : p.steps es = some q) : Onward p q := by
  induction hmore using steps_induction with
  | nil => exact ⟨Nat.le_refl _, Nat.le_refl _, fun _ => rfl, Nat.le_refl _, Nat.le_refl _⟩
  | snoc es m e q hm hstep ih =>
    obtain ⟨hphase, hseq, hsame, hcompleted, hfailed⟩ := ih
    have hmove := moves_of_step hstep
    have hphase' := Nat.le_trans hphase hmove.rank_le
    rcases hmove.latest_cases (counted_of_steps (steps_trans hrun hm))
      with heq | ⟨hnext, hcompleted', hfailed'⟩
    · rw [← heq] at hseq hsame hcompleted hfailed
      exact ⟨hphase', hseq, hsame, hcompleted, hfailed⟩
    · -- a number that was raised is not met again
      refine ⟨hphase', by omega, fun hback => ?_, Nat.le_trans hcompleted hcompleted',
        Nat.le_trans hfailed hfailed'⟩
      omega

/-! ## When the counts of a snapshot were read -/

/-- A run comes through `a`, and from there on nobody takes the lock. -/
def Within (start : Pool α) (es : List (Event α)) (a p : Pool α) : Prop :=
  ∃ before between, es = before ++ between ∧ start.steps before = some a ∧
    a.steps between = some p ∧ ∀ e ∈ between, e.locks = false

theorem Within.here {start p : Pool α} {es : List (Event α)} (hrun : start.steps es = some p) :
    Within start es p p :=
  ⟨es, [], (List.append_nil es).symm, hrun, rfl, nofun⟩

/-- One more step that does not take the lock leaves the run `Within` the same episode. -/
theorem Within.snoc {start a p q : Pool α} {es : List (Event α)} {e : Event α}
    (h : Within start es a p) (hstep : p.step e = some q) (hfree : e.locks = false) :
    Within start (es ++ [e]) a q := by
  obtain ⟨before, between, rfl, ha, hp, hlocks⟩ := h
  refine ⟨before, between ++ [e], List.append_assoc .., ha, steps_snoc.mpr ⟨p, hp, hstep⟩, ?_⟩
  intro e' he'
  rcases List.mem_append.mp he' with he' | he'
  · exact hlocks e' he'
  · rwa [List.mem_singleton.mp he']

/-- The two moments of a run at which the latest snapshot has read its counts: the finished jobs at
`a` and the failed ones at `b`, which is not earlier. In between nobody takes the lock. -/
structure Readings (start : Pool α) (es : List (Event α)) (a b p : Pool α) : Prop where
  run : ∃ before since, es = before ++ since ∧ Within start before a b ∧ b.steps since = some p
  completed : p.latest.completed = a.completed
  failed : p.latest.failed = b.failed

/-- A step that keeps the counts of the latest snapshot keeps the moments at which they were read
(`Readings`). -/
theorem Readings.snoc {start a b p q : Pool α} {es : List (Event α)} {e : Event α}
    (h : Readings start es a b p) (hstep : p.step e = some q)
    (hcompleted : q.latest.completed = p.latest.completed)
    (hfailed : q.latest.failed = p.latest.failed) : Readings start (es ++ [e]) a b q := by
  obtain ⟨before, since, rfl, hwithin, hp⟩ := h.run
  refine ⟨⟨before, since ++ [e], List.append_assoc .., hwithin, steps_snoc.mpr ⟨p, hp, hstep⟩⟩, ?_,
    ?_⟩
  · exact hcompleted.trans h.completed
  · exact hfailed.trans h.failed

/-- The counts of the latest snapshot, and those that a draft has so far, are from moments of the
run: `Readings` for the snapshot, and `Within` for each count of the draft. -/
structure Dated (start : Pool α) (es : List (Event α)) (p : Pool α) : Prop where
  latest : ∃ a b, Readings start es a b p
  drafted : ∀ d c, p.draft = some d → d.tally.completed? = some c →
    ∃ a, Within start es a p ∧ a.completed = c

/-- Every step keeps the counts `Dated`. A draft that becomes the latest snapshot hands its moments
over. -/
theorem Dated.step {start p q : Pool α} {es : List (Event α)} {e : Event α}
    (h : Dated start es p) (hrun : start.steps es = some p) (hstep : p.step e = some q) :
    Dated start (es ++ [e]) q := by
  obtain ⟨a, b, hreadings⟩ := h.latest
  -- a snapshot that comes from a draft has its counts from now on
  have fresh {a : Pool α} (hwithin : Within start es a p)
      (hcompleted : q.latest.completed = a.completed) (hfailed : q.latest.failed = p.failed)
      (hdraft : q.draft = none) : Dated start (es ++ [e]) q := by
    refine ⟨⟨a, p, ⟨es, [e], rfl, hwithin, (steps_singleton ..).trans hstep⟩, hcompleted, hfailed⟩,
      ?_⟩
    intro d c hd
    rw [hdraft] at hd
    cases hd
  have old (hcompleted : q.latest.completed = p.latest.completed)
      (hfailed : q.latest.failed = p.latest.failed) : ∃ a b, Readings start (es ++ [e]) a b q :=
    ⟨a, b, hreadings.snoc hstep hcompleted hfailed⟩
  -- whoever leaves a draft alone does without the lock
  have kept (hlatest : q.latest.completed = p.latest.completed ∧ q.latest.failed = p.latest.failed)
      (hdraft : q.draft = p.draft) : Dated start (es ++ [e]) q := by
    refine ⟨old hlatest.1 hlatest.2, fun d c hd hc => ?_⟩
    rw [hdraft] at hd
    obtain ⟨a, hwithin, ha⟩ := h.drafted d c hd hc
    have hfree : e.locks = false := by
      refine Bool.eq_false_iff.mpr fun hlocks => ?_
      cases hd.symm.trans ((step_eq_some_iff.mp hstep).1 hlocks)
    exact ⟨a, hwithin.snoc hstep hfree, ha⟩
  have taken (hlatest : q.latest = p.latest)
      (hdraft : ∀ d, q.draft = some d → d.tally.completed? = none) : Dated start (es ++ [e]) q := by
    refine ⟨old (by rw [hlatest]) (by rw [hlatest]), fun d c hd hc => ?_⟩
    cases (hdraft d hd).symm.trans hc
  have hm := moves_of_step hstep
  cases hm with
  | start | lookIdle =>
    refine taken rfl fun d hd => ?_
    cases hd
    rfl
  | look _ hresize =>
    cases hresize <;>
      · refine taken rfl fun d hd => ?_
        cases hd
        rfl
  | readQueued =>
    refine taken rfl fun d hd => ?_
    cases hd
    rfl
  | readCompleted =>
    refine ⟨old rfl rfl, fun d c hd hc => ?_⟩
    cases hd
    cases hc
    exact ⟨p, (Within.here hrun).snoc hstep rfl, rfl⟩
  | readFailed hdraft htally =>
    obtain ⟨a, hwithin, ha⟩ := h.drafted _ _ hdraft (by rw [htally]; rfl)
    exact fresh hwithin ha.symm rfl rfl
  | conclude => exact fresh (.here hrun) rfl rfl rfl
  | _ => exact kept ⟨rfl, rfl⟩ rfl

/-- The latest snapshot of every run has read its counts at two moments (`Readings`) of that run. -/
theorem dated_of_steps {config : Config} {now : Int} {es : List (Event α)} {p : Pool α}
    (h : (create config now).steps es = some p) : Dated (create config now) es p := by
  induction h using steps_induction with
  | nil => exact ⟨⟨_, _, ⟨[], [], rfl, .here rfl, rfl⟩, rfl, rfl⟩, nofun⟩
  | snoc es p e q hrun hstep ih => exact ih.step hrun hstep

/-- A pool that is past running cannot be started (`alreadyShutDown`), and an attempt changes
nothing. -/
theorem start_past_running {p : Pool α} (hphase : p.phase = .shuttingDown ∨ p.phase = .stopped)
    (launches : Nat → Bool) (monitor : Bool) (now : Int) :
    p.start launches monitor now = (p, some .alreadyShutDown) := by
  unfold start
  rcases hphase with hphase | hphase <;> rw [hphase]

/-! ## The end of a pool -/

/-- A pool without workers that can get no more of them, since its phase is past running. -/
structure Deserted (p : Pool α) : Prop where
  workers : p.workers = []
  late : 2 ≤ p.phase.rank

/-- Past running nobody is launched any more, neither by a start nor by the monitor. -/
theorem Deserted.move {p q : Pool α} (h : Deserted p) {e : Event α} (hm : Moves p e q) :
    Deserted q := by
  have hlate := h.late
  refine ⟨?_, Nat.le_trans hlate hm.rank_le⟩
  cases hm with
  | start hphase | look hphase =>
    rw [hphase] at hlate
    exact absurd hlate (by decide)
  | collect => rfl
  | lookIdle =>
    show p.workers.filter _ = []
    rw [h.workers, List.filter_nil]
  | retire hat | depart hat | take hat | begin hat | beginFails hat | run hat | finish hat
  | finishFails hat | count hat | countFailing hat | countFailed hat | shut hat | shutAgain hat
  | yield hat | abandon hat | leave hat | leaveLast hat => exact (Roster.nobody h.workers hat).elim
  | _ => exact h.workers

theorem Deserted.of_steps {p q : Pool α} (h : Deserted p) {es : List (Event α)}
    (hrun : p.steps es = some q) :
    Deserted q := by
  induction hrun using steps_induction with
  | nil => exact h
  | snoc es m e q _ hstep ih => exact ih.move (moves_of_step hstep)

/-- Nobody works in the pool, it takes no more jobs, and the latest snapshot counts all that it has
done. No other is put together. -/
structure Over (p : Pool α) : Prop extends Concluded p where
  workers : p.workers = []
  closed : p.accepting = false
  pending : p.mailbox.pending = []
  draft : p.draft = none

/-- What can be seen of a pool has not changed: its phase, the number of workers that it wants, and
its latest snapshot. -/
structure Unmoved (p q : Pool α) : Prop where
  phase : q.phase = p.phase
  active : q.active = p.active
  latest : q.latest = p.latest

theorem Unmoved.refl (p : Pool α) : Unmoved p p := ⟨rfl, rfl, rfl⟩

theorem Unmoved.trans {p m q : Pool α} (h : Unmoved p m) (h' : Unmoved m q) : Unmoved p q :=
  ⟨h'.phase.trans h.phase, h'.active.trans h.active, h'.latest.trans h.latest⟩

/-- All but a look of the monitor, which would make a snapshot of its own. -/
def Event.Unwatched : Event α → Prop
  | .survey _ | .look _ => False
  | _ => True

/-- Nothing but a look of the monitor can still be seen of a pool that is `Over`. -/
theorem Over.move {p q : Pool α} (h : Over p) {e : Event α} (he : e.Unwatched) (hm : Moves p e q) :
    Over q ∧ Unmoved p q := by
  -- a pool that is over is stopped, which rules out the steps of the other phases
  have started {s : Phase} (hs : p.phase = s) : s = .stopped := hs.symm.trans h.phase
  have keeps (hphase : q.phase = p.phase) (hlive : q.live = p.live)
      (hlatest : q.latest = p.latest) (hcompleted : q.completed = p.completed)
      (hfailed : q.failed = p.failed) (hworkers : q.workers = []) (hclosed : q.accepting = false)
      (hpending : q.mailbox.pending = []) (hlooking : q.looking = p.looking)
      (hdraft : q.draft = p.draft) (hactive : q.active = p.active) : Over q ∧ Unmoved p q := by
    refine ⟨⟨⟨hphase.trans h.phase, hlive.trans h.live, ?_, ?_, ?_, ?_⟩, hworkers, hclosed,
      hpending, hdraft.trans h.draft⟩, hphase, hactive, hlatest⟩
    · rw [hlatest]; exact h.latest
    · rw [hlatest, hcompleted]; exact h.completed
    · rw [hlatest, hfailed]; exact h.failed
    · rcases h.settled with hzero | ⟨_, hquiet⟩
      · exact .inl (hcompleted.trans hzero)
      · exact .inr ⟨hpending, hlooking.trans hquiet.looking, hdraft.trans hquiet.draft⟩
  -- nobody works any more and nothing enters, so only requests are left
  cases hm with
  | number | startLate | markLate =>
    exact keeps rfl rfl rfl rfl rfl h.workers h.closed h.pending rfl rfl rfl
  | enqueue hopen => cases h.closed.symm.trans hopen
  | startFails hphase | start hphase | markUnstarted hphase | markRunning hphase =>
    cases started hphase
  | drain | cancel => exact keeps rfl rfl rfl rfl rfl h.workers rfl h.pending rfl rfl rfl
  | collect => exact keeps rfl rfl rfl rfl rfl rfl h.closed h.pending rfl rfl rfl
  | concludeSame => exact keeps rfl rfl rfl rfl rfl h.workers h.closed rfl rfl rfl rfl
  | conclude hnew => exact absurd ⟨h.latest, h.completed, h.failed, h.pending⟩ hnew
  | survey | look | lookIdle => exact he.elim
  | readQueued hdraft | readCompleted hdraft | readFailed hdraft => cases h.draft.symm.trans hdraft
  | retire hat | depart hat | take hat | begin hat | beginFails hat | run hat | finish hat
  | finishFails hat | count hat | countFailing hat | countFailed hat | shut hat | shutAgain hat
  | yield hat | abandon hat | leave hat | leaveLast hat => exact (Roster.nobody h.workers hat).elim

theorem Over.of_steps {p q : Pool α} (h : Over p) {es : List (Event α)} (hrun : p.steps es = some q)
    (hes : ∀ e ∈ es, e.Unwatched) : Over q ∧ Unmoved p q := by
  induction hrun using steps_induction with
  | nil => exact ⟨h, .refl p⟩
  | snoc es m e q _ hstep ih =>
    obtain ⟨hover, hsame⟩ := ih fun e' he' => hes e' (List.mem_append_left _ he')
    obtain ⟨hover', hsame'⟩ := hover.move (hes e (by simp)) (moves_of_step hstep)
    exact ⟨hover', hsame.trans hsame'⟩

/-! ## When a shutdown has returned -/

/-- A `shutdown` that waits has returned. It has closed the queue and moved the phase, and unless
the pool was never started it has waited for all workers and counted once more. Before it, between
its steps and while it waits anything may happen. -/
inductive Returned (start : Pool α) : Pool α → Prop
  | unstarted {es fs : List (Event α)} {c b : Pool α} (hbefore : start.steps es = some c)
      (hclosed : (c.close true).steps fs = some b) (hphase : b.phase = .created)
      (hfree : b.draft = none) :
      Returned start b.mark
  | waited (now : Int) {es fs gs hs : List (Event α)} {c b d l : Pool α}
      (hbefore : start.steps es = some c) (hclosed : (c.close true).steps fs = some b)
      (hphase : b.phase ≠ .created) (hfree : b.draft = none) (hexits : b.mark.steps gs = some d)
      (hlive : d.live = 0) (hquiet : Quiet d) (hcollected : d.collect.steps hs = some l)
      (hend : Quiet l) : Returned start (l.conclude now)

/-- A call of `Shutdown` that waits and ends without a fault has `Returned`. -/
theorem Shutdown.returned {start p q : Pool α} {es₀ es : List (Event α)} {launches : Nat → Bool}
    {monitor : Bool} (hrun : start.steps es₀ = some p)
    (hcall : Shutdown true launches monitor p es q none) : Returned start q := by
  cases hcall with
  | unstarted hopening hclosed hphase hfree =>
    exact .unstarted (steps_trans hrun hopening.steps) hclosed.run hphase hfree
  | hasty hwait => cases hwait
  | waited now _ hopening hclosed hphase hfree hexits hlive hquiet hcollected hend =>
    exact .waited now (steps_trans hrun hopening.steps) hclosed.run hphase hfree hexits.run hlive
      hquiet
      hcollected.run hend

/-- A call that waits leaves a pool that is `Over`, whatever came between its steps. -/
theorem over_of_returned {config : Config} {now : Int} {q : Pool α} (hmin : 1 ≤ config.minWorkers)
    (hmax : config.minWorkers ≤ config.maxWorkers) (h : Returned (create config now) q) :
    Over q := by
  -- a queue that was closed stays closed
  have closed {es fs : List (Event α)} {c q : Pool α}
      (hbefore : (create config now).steps es = some c) (hrest : (c.close true).steps fs = some q) :
      q.accepting = false := by
    obtain ⟨hsealed, hclosing⟩ := (sealed_of_steps hbefore).close true
    rw [(hsealed.of_steps hrest).accepting, (hsealed.closed_of_steps hclosing hrest).1]
    rfl
  cases h with
  | @unstarted es fs c b hbefore hclosed hphase hfree =>
    have hb : (create config now).steps (es ++ .close true :: fs) = some b :=
      steps_trans hbefore (steps_cons rfl hclosed)
    have hreported := reported_of_steps hmin hmax hb
    have hworkers := (vacant_of_created hmin hmax hb hphase).workers
    have hlive := (roster_of_steps hb).live_of_nobody hworkers
    obtain ⟨phase, latest, monitoring, hmark⟩ := mark_eq b
    have hopen : b.accepting = false := closed hbefore hclosed
    have hconcluded := (concluded_mark hreported (counted_of_steps hb) hlive hphase).1
    refine ⟨hconcluded, ?_, ?_, ?_, ?_⟩
    · rw [hmark]
      exact hworkers
    · rw [hmark]
      exact hopen
    · rw [hmark]
      exact (hreported.unstarted hphase).2.2
    · rw [hmark]
      exact hfree
  | @waited t es fs gs hs c b d l hbefore hclosed hphase hfree hexits hlive hquiet hcollected
      hend =>
    have hrest : (c.close true).steps (fs ++ .mark :: (gs ++ .collect :: hs)) = some l :=
      steps_trans hclosed (steps_cons (step_mark hfree)
        (steps_trans hexits (steps_cons (step_collect hlive hquiet) hcollected)))
    -- nobody is left once the workers are forgotten, and nobody comes
    have hlate : 2 ≤ d.phase.rank := Nat.le_trans (rank_mark hphase) (rank_of_steps hexits)
    have hdeserted : Deserted l := Deserted.of_steps (p := d.collect) ⟨rfl, hlate⟩ hcollected
    have hl : (create config now).steps
        (es ++ .close true :: (fs ++ .mark :: (gs ++ .collect :: hs))) = some l :=
      steps_trans hbefore (steps_cons rfl hrest)
    have hstarted : l.phase ≠ .created := by
      intro hcreated
      have hlate := hdeserted.late
      rw [hcreated] at hlate
      exact absurd hlate (by decide)
    have hmoves := moves_of_conclude t hend.looking hend.draft
    have hlive := (roster_of_steps hl).live_of_nobody hdeserted.workers
    obtain ⟨hconcluded, _⟩ := (reported_of_steps hmin hmax hl).conclude hlive hstarted hmoves
    have hclosed' := closed hbefore
      (steps_trans hrest ((steps_singleton ..).trans (step_conclude hend t)))
    refine ⟨hconcluded, (hdeserted.move hmoves).workers, hclosed', ?_, ?_⟩ <;>
      generalize l.conclude t = q at hmoves
    · cases hmoves <;> rfl
    · cases hmoves with
      | concludeSame => exact hend.draft
      | conclude => rfl

end Headroom.Pool

/-! ## Requests to a pool that is over -/

namespace Headroom.Simulation

open Pool

variable {α : Type} {p : Pool α} {s : Simulation α}

/-- What a program asks of a pool: the four calls that it has. -/
inductive Request (α : Type)
  | start
  | shutdown (wait : Bool)
  | submit (body : Result α) (plan : Plan) (limitMs : Option Int)
  | map (plan : Plan) (bodies : List (Result α))

/-- The request is done, whatever comes of it for the caller. What the caller gets is left out,
since only what can be seen of the pool matters. -/
def perform (s : Simulation α) : Request α → Simulation α
  | .start => s.start.1
  | .shutdown wait => (s.shutdown wait).1
  | .submit body plan limitMs => (s.submit body plan limitMs).1
  | .map plan bodies => (s.map plan bodies).1

/-- The pool of a simulation is over, and what can be seen of it is as it was in `p`. -/
structure Halted (p : Pool α) (s : Simulation α) : Prop where
  ended : Over s.pool
  unmoved : Unmoved p s.pool

theorem Halted.fire (h : Halted p s) {e : Event α} (he : e.Unwatched) : Halted p (s.fire e) := by
  cases hstep : s.pool.step e with
  | none =>
    rw [Simulation.fire, hstep]
    exact h
  | some q =>
    obtain ⟨hover, hsame⟩ := h.ended.move he (moves_of_step hstep)
    have hpool := pool_fire hstep
    exact ⟨hpool ▸ hover, hpool ▸ h.unmoved.trans hsame⟩

theorem Halted.announce (h : Halted p s) : Halted p s.announce :=
  ((h.fire (e := .read) trivial).fire (e := .read) trivial).fire (e := .read) trivial

theorem Halted.rest (h : Halted p s) : Halted p s.rest := by
  rw [rest_of_vacant h.ended.workers]
  exact h

theorem Halted.start (h : Halted p s) : Halted p s.start.1 := by
  have hlaunch : Halted p s.launchPool.1 := by
    have hfire := (h.fire (e := .start s.host.launches true s.clock) trivial).announce
    unfold launchPool
    dsimp only
    split <;> exact ⟨hfire.ended, hfire.unmoved⟩
  exact hlaunch.rest

theorem Halted.submit (h : Halted p s) (body : Result α) (plan : Plan) (limitMs : Option Int) :
    Halted p (s.submit body plan limitMs).1 := by
  have hnumber := h.fire (e := .number) trivial
  rw [Simulation.submit, enqueue_of_closed hnumber.ended.closed]
  exact hnumber.rest

/-- The first item of a batch is refused, and the others are not tried. -/
theorem Halted.map (h : Halted p s) (plan : Plan) (bodies : List (Result α)) :
    Halted p (s.map plan bodies).1 := by
  have hsame : (s.enqueueAll plan 0 bodies).1 = s := by
    cases bodies with
    | nil => rfl
    | cons body rest => rw [enqueueAll, enqueue_of_closed h.ended.closed]
  show Halted p (s.enqueueAll plan 0 bodies).1.rest
  rw [hsame]
  exact h.rest

theorem Halted.shutdown (h : Halted p s) (wait : Bool) : Halted p (s.shutdown wait).1 := by
  have hfirst : s.pool.startsFirst wait = false := by simp [startsFirst, h.ended.phase]
  have hmarked := ((h.fire (e := .close wait) trivial).fire (e := .mark) trivial).rest
  have hcall : (s.shutdown wait).1 = s.close wait := by rw [Simulation.shutdown, hfirst]; rfl
  rw [hcall]
  unfold close
  dsimp only
  split
  · exact hmarked
  · exact (hmarked.fire (e := .collect) trivial).fire (e := .conclude _) trivial

/-- No request changes what can be seen of a pool that is `Over`. -/
theorem Halted.perform (h : Halted p s) (r : Request α) : Halted p (s.perform r) := by
  cases r with
  | start => exact h.start
  | shutdown wait => exact h.shutdown wait
  | submit body plan limitMs => exact h.submit body plan limitMs
  | map plan bodies => exact h.map plan bodies

theorem Halted.performAll (h : Halted p s) (requests : List (Request α)) :
    Halted p (requests.foldl Simulation.perform s) := by
  induction requests generalizing s with
  | nil => exact h
  | cons r rest ih => exact ih (h.perform r)

end Headroom.Simulation

namespace Headroom.Pool

variable {α : Type}

/-- **Phases and snapshots of a pool.** Whatever callers, workers and the monitor did, and whatever
they do next: the phase does not go back; every change of the latest snapshot raises its number by
one, so that two snapshots with the same number are the same; the counts of finished and of failed
jobs do not fall from one snapshot to a later one. No more jobs have failed than are finished by
now. The snapshot itself has read the two counters at two moments (`Readings`), and says so exactly
if the failures that were counted in between are no more than the jobs that had succeeded before. A
start past running is a failure of the pool and changes nothing. Once a shutdown that waits has
returned, the counts of the snapshot agree, and phase, number of workers and snapshot stay as they
are, whatever callers ask for, be it one after the other or at the same time. -/
theorem snapshots_are_numbered {config : Config} {now : Int} {es : List (Event α)} {p : Pool α}
    (hmin : 1 ≤ config.minWorkers) (hmax : config.minWorkers ≤ config.maxWorkers)
    (hrun : (create config now).steps es = some p) :
    (∀ more q, p.steps more = some q → Onward p q) ∧
      (∀ e q, p.step e = some q → q.latest ≠ p.latest → q.latest.seq = p.latest.seq + 1) ∧
      p.latest.failed ≤ p.completed ∧
      (∃ a b, Readings (create config now) es a b p ∧
        (p.latest.failed ≤ p.latest.completed ↔ b.failed - a.failed ≤ a.completed - a.failed)) ∧
      (p.phase = .shuttingDown ∨ p.phase = .stopped → ∀ launches monitor t,
        ∃ f, p.start launches monitor t = (p, some f) ∧ f.kind = .poolFailure) ∧
      (Returned (create config now) p →
        p.latest.failed ≤ p.latest.completed ∧
          (∀ more q, p.steps more = some q → (∀ e ∈ more, e.Unwatched) → Unmoved p q) ∧
          ∀ (s : Simulation α) (requests : List (Simulation.Request α)), s.pool = p →
            Unmoved p (requests.foldl Simulation.perform s).pool) := by
  have hcounted := counted_of_steps hrun
  have hfailed : p.failed ≤ p.completed := Nat.le_trans (Nat.le_add_right ..) hcounted.failed
  refine ⟨fun more q hmore => onward_of_steps hrun hmore, fun e q hstep hchanged => ?_,
    Nat.le_trans hcounted.failedBehind hfailed, ?_,
    fun hlate launches monitor t => ⟨.alreadyShutDown, start_past_running hlate launches monitor t,
      rfl⟩,
    fun hreturned => ?_⟩
  · exact (((moves_of_step hstep).latest_cases hcounted).resolve_left hchanged).seq
  · obtain ⟨a, b, hreadings⟩ := (dated_of_steps hrun).latest
    obtain ⟨_, _, _, ⟨_, _, _, hbefore, _⟩, _⟩ := hreadings.run
    have hsound : a.failed ≤ a.completed :=
      Nat.le_trans (Nat.le_add_right ..) (counted_of_steps hbefore).failed
    refine ⟨a, b, hreadings, ?_⟩
    rw [hreadings.completed, hreadings.failed]
    omega
  · have hover := over_of_returned hmin hmax hreturned
    refine ⟨?_, fun more q hmore hes => (hover.of_steps hmore hes).2, fun s requests hpool => ?_⟩
    · rw [hover.failed, hover.completed]
      exact hfailed
    · have hhalted : Simulation.Halted p s := ⟨hpool ▸ hover, hpool ▸ .refl _⟩
      exact (hhalted.performAll requests).unmoved

/-- All that can be asked for, once more. -/
def afterthoughts : List (Simulation.Request Nat) :=
  [.shutdown true, .submit (.ok 8) {} none, .start, .map {} [.ok 9, .ok 10], .shutdown false,
    .shutdown true]

theorem snapshots_are_numbered_waiting :
    ∃ q, (create { minWorkers := 1, maxWorkers := 1 } 0).steps
      ([.enqueue 0 (.ok 7)] ++ drainWaiting) = some q ∧
      Returned (create { minWorkers := 1, maxWorkers := 1 } 0) q ∧
      q.latest.failed ≤ q.latest.completed ∧ Onward waiting q ∧ ∀ s, s.pool = q →
      Unmoved q (afterthoughts.foldl Simulation.perform s).pool := by
  obtain ⟨q, hcall⟩ := shutdown_waiting
  have hbegin := staged_waiting.steps
  have hrun := steps_trans hbegin hcall.steps
  have hreturned := hcall.returned hbegin
  obtain ⟨hlater, _⟩ := snapshots_are_numbered (by decide) (by decide) hbegin
  obtain ⟨_, _, _, _, _, hover⟩ := snapshots_are_numbered (by decide) (by decide) hrun
  obtain ⟨hcounts, _, hasked⟩ := hover hreturned
  exact ⟨q, hrun, hreturned, hcounts, hlater _ q hcall.steps, fun s hs => hasked s afterthoughts hs⟩

/-- A task fails while the monitor puts a snapshot together: the finished jobs are read before it is
counted, and the failures after that. -/
def failureBetweenReads : List (Event Nat) :=
  [.start (fun _ => true) true 0, .read, .read, .read, .enqueue 0 (.error .cancelled),
    .work 0 .claim, .work 0 (.begin (.ok none) 0), .work 0 .run, .work 0 (.finish (.ok none) 0),
    .survey 0, .look (fun _ => true), .read, .read, .work 0 .count, .work 0 .countFailed, .read]

/-- The snapshot shows a failed job and none that is finished. -/
theorem snapshot_shows_more_failed :
    ∃ p, (create { minWorkers := 1, maxWorkers := 1 } 0).steps failureBetweenReads = some p ∧
      p.latest.completed = 0 ∧ p.latest.failed = 1 :=
  ⟨_, rfl, rfl, rfl⟩

end Headroom.Pool
