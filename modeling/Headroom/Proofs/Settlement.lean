import Headroom.Proofs.Closing
import Headroom.Proofs.Tracking
import Mathlib.Logic.ExistsUnique

/-!
# Every task is settled once

A ticket gets its result in one of four ways, and `Settles` lists them: its body runs, a shutdown
cancels it in the queue, the first worker that could not measure a job empties the queue, or its own
worker gives it up. Several of them may be tried on one ticket; only the first counts.

* **`result?_step`**: a step keeps the results that are there and adds those that `Settles` lists.
* **`result?_iff`**: so the result of a ticket is what settled it at some moment of the run.
* **`settled_once`**: there is only one such moment.
* **`unmeasured_of_doomed`, `doomed_of_unmeasured`**: a worker gives up a job that has no result
  exactly if it could not start its stopwatch for it.

`every_task_is_settled_once` puts these together with `Tracked`, and with `Attended` for the end of
a pool.
-/

namespace Headroom.Pool

variable {α : Type}

/-- In the state `p` the event gives the ticket `t` its result `r`. There are four ways: the body
has run, the worker gives the job up, a shutdown drops it, or a failing worker takes the queue
along. -/
inductive Settles (p : Pool α) : Event α → Nat → Result α → Prop
  | ran {id : Nat} {job : Job α} {watch : Stopwatch}
      (hat : p.stage? id = some (.running job watch)) :
      Settles p (.work id .run) job.ticket job.outcome
  | cancelled {t : Nat} (hqueued : t ∈ p.queue.map Job.ticket) :
      Settles p (.close false) t (.error .cancelled)
  | orphaned {id t : Nat} {job : Job α} {what : Bytes} (hat : p.stage? id = some (.broken job what))
      (hfirst : p.failure = none) (hqueued : t ∈ p.queue.map Job.ticket) :
      Settles p (.work id .shut) t (.error (.harness what))
  | givenUp {id : Nat} {job : Job α} {what : Bytes}
      (hat : p.stage? id = some (.abandoning job what)) (hpending : p.result? job.ticket = none) :
      Settles p (.work id .abandon) job.ticket (.error (.harness what))

theorem Settles.pending {tasks : List (Nat × Result α)} {p : Pool α} (h : Tracked tasks p)
    {e : Event α} {t : Nat} {r : Result α} (hs : Settles p e t r) :
    t < p.accepted ∧ p.result? t = none := by
  have queued (hqueued : t ∈ p.queue.map Job.ticket) : t < p.accepted ∧ p.result? t = none := by
    obtain ⟨job, hjob, rfl⟩ := List.mem_map.mp hqueued
    exact ⟨((h.mem_queue _).mp hqueued).2, h.queued_pending job hjob⟩
  cases hs with
  | ran hat =>
    have hahead : p.view Stage.ahead? _ = some _ := view_of_stage hat
    exact ⟨h.held_lt (Tracked.held_of_ahead hahead), h.ahead_pending _ _ hahead⟩
  | cancelled hqueued => exact queued hqueued
  | orphaned _ _ hqueued => exact queued hqueued
  | givenUp hat hpending => exact ⟨h.held_lt (view_of_stage hat), hpending⟩

theorem or_some_iff {x y : Option (Result α)} {settled : Prop} {r : Result α}
    (hold : settled → x = none) (hnew : x = none → (y = some r ↔ settled)) :
    x.or y = some r ↔ x = some r ∨ settled := by
  -- an entry that is there is kept, and nothing settles it again
  cases x with
  | none => simpa using hnew rfl
  | some z =>
    have hnot : ¬settled := fun hs => nomatch hold hs
    simp [hnot]

/-- Results that are there stay, and exactly what the step settles is added: `Settles` misses
nothing. -/
theorem result?_step {tasks : List (Nat × Result α)} {p q : Pool α} (h : Tracked tasks p)
    {e : Event α} (hm : Moves p e q) (t : Nat) (r : Result α) :
    q.result? t = some r ↔ p.result? t = some r ∨ Settles p e t r := by
  -- what settles a ticket finds it without a result, so the two sides exclude each other
  have hpending : Settles p e t r → p.result? t = none := fun hs => (hs.pending h).2
  have nothing (hsame : q.result? t = p.result? t) (hnot : ¬Settles p e t r) :
      q.result? t = some r ↔ p.result? t = some r ∨ Settles p e t r := by
    rw [hsame]
    exact ⟨.inl, fun hs => hs.resolve_right hnot⟩
  have one {id : Nat} {job : Job α} (hheld : p.held id = some job) (x : Result α)
      (hledger : q.result? t = (p.settle job.ticket x).result? t)
      (hiff : p.result? t = none → (t = job.ticket ∧ r = x ↔ Settles p e t r)) :
      q.result? t = some r ↔ p.result? t = some r ∨ Settles p e t r := by
    rw [hledger, result?_settle]
    refine or_some_iff hpending fun hnone => ?_
    rw [← hiff hnone, Option.ite_none_right_eq_some, Option.some_inj]
    constructor
    · rintro ⟨⟨rfl, _⟩, rfl⟩
      exact ⟨rfl, rfl⟩
    · rintro ⟨rfl, rfl⟩
      exact ⟨⟨rfl, h.held_lt hheld⟩, rfl⟩
  have all (x : Result α) (hledger : q.result? t = (p.settleAll p.queue x).result? t)
      (hiff : t ∈ p.queue.map Job.ticket ∧ r = x ↔ Settles p e t r) :
      q.result? t = some r ↔ p.result? t = some r ∨ Settles p e t r := by
    rw [hledger, result?_settleAll]
    refine or_some_iff hpending fun _ => ?_
    rw [← hiff, Option.ite_none_right_eq_some, Option.some_inj]
    constructor
    · rintro ⟨⟨hmem, _⟩, rfl⟩
      exact ⟨hmem, rfl⟩
    · rintro ⟨hmem, rfl⟩
      exact ⟨⟨hmem, ((h.mem_queue t).mp hmem).2⟩, rfl⟩
  cases hm with
  | enqueue => exact nothing (result?_enqueue ..) nofun
  | look _ hresize => cases hresize <;> exact nothing rfl nofun
  | number | startLate | startFails | start | drain | markUnstarted | markRunning | markLate
  | collect | concludeSame | conclude | survey | lookIdle | readQueued | readCompleted | readFailed
  | retire | depart | take | begin | beginFails | finish | finishFails | count | countFailing
  | countFailed | yield | leave | leaveLast => exact nothing rfl nofun
  | shutAgain _ hagain =>
    -- the first worker to fail has emptied the queue, so a later one orphans nobody
    refine nothing rfl fun hs => ?_
    cases hs with
    | orphaned _ hfirst => simp [hfirst] at hagain
  | cancel =>
    refine all _ rfl ⟨?_, ?_⟩
    · rintro ⟨hmem, rfl⟩
      exact .cancelled hmem
    · intro hs
      cases hs with
      | cancelled hmem => exact ⟨hmem, rfl⟩
  | shut hat hfirst =>
    refine all _ rfl ⟨?_, ?_⟩
    · rintro ⟨hmem, rfl⟩
      exact .orphaned hat hfirst hmem
    · intro hs
      cases hs with
      | orphaned hat' _ hmem =>
        -- the worker is at one stage, so it is the same job and the same reason
        rw [hat] at hat'
        cases hat'
        exact ⟨hmem, rfl⟩
  | run hat =>
    refine one (view_of_stage hat) _ rfl fun _ => ⟨?_, ?_⟩
    · rintro ⟨rfl, rfl⟩
      exact .ran hat
    · intro hs
      cases hs with
      | ran hat' =>
        rw [hat] at hat'
        cases hat'
        exact ⟨rfl, rfl⟩
  | abandon hat =>
    refine one (view_of_stage hat) _ rfl fun hnone => ⟨?_, ?_⟩
    · rintro ⟨rfl, rfl⟩
      exact .givenUp hat hnone
    · intro hs
      cases hs with
      | givenUp hat' =>
        rw [hat] at hat'
        cases hat'
        exact ⟨rfl, rfl⟩

/-! ## Whole runs -/

variable {config : Config} {now : Int} {es : List (Event α)} {p : Pool α}

theorem result?_of_steps (hrun : (create config now).steps es = some p) {more : List (Event α)}
    {q : Pool α} (hmore : p.steps more = some q) {t : Nat} {r : Result α}
    (ht : p.result? t = some r) : q.result? t = some r := by
  induction hmore using steps_induction with
  | nil => exact ht
  | snoc more m e q hm hstep ih =>
    exact (result?_step (tracked_of_steps (steps_trans hrun hm)) (moves_of_step hstep) t r).mpr
      (.inl ih)

/-- The result of a ticket is what settled it (`Settles`) at some moment of the run. -/
theorem result?_iff (hrun : (create config now).steps es = some p) {t : Nat} {r : Result α} :
    p.result? t = some r ↔ ∃ i q e, During (create config now) es i q e ∧ Settles q e t r := by
  induction hrun using steps_induction with
  | nil =>
    refine ⟨nofun, ?_⟩
    rintro ⟨i, q, e, ⟨_, he⟩, _⟩
    cases he
  | snoc es p e q hrun hstep ih =>
    rw [result?_step (tracked_of_steps hrun) (moves_of_step hstep), ih]
    constructor
    · rintro (⟨i, m, e', hd, hs⟩ | hs)
      · exact ⟨i, m, e', hd.append _, hs⟩
      · exact ⟨es.length, p, e, .last hrun e, hs⟩
    · rintro ⟨i, m, e', hd, hs⟩
      rcases during_snoc.mp hd with hd | ⟨_, hm, rfl⟩
      · exact .inl ⟨i, m, e', hd, hs⟩
      · rw [hrun] at hm
        cases hm
        exact .inr hs

/-- What settled a ticket is in its result when something else tries to. -/
theorem not_settles_later {i j : Nat} {q q' : Pool α} {e e' : Event α} {t : Nat} {r r' : Result α}
    (hi : During (create config now) es i q e) (hs : Settles q e t r)
    (hj : During (create config now) es j q' e') (hs' : Settles q' e' t r') : ¬i < j := by
  intro hlt
  have hpast : During (create config now) (es.take j) i q e := hi.take hlt
  have hsome : q'.result? t = some r := (result?_iff hj.1).mpr ⟨i, q, e, hpast, hs⟩
  have hnone : q'.result? t = none := (hs'.pending (tracked_of_steps hj.1)).2
  rw [hsome] at hnone
  cases hnone

/-- A ticket is settled (`Settles`) at one moment only, so it has one result. -/
theorem settled_once {i j : Nat} {q q' : Pool α} {e e' : Event α} {t : Nat} {r r' : Result α}
    (hi : During (create config now) es i q e) (hs : Settles q e t r)
    (hj : During (create config now) es j q' e') (hs' : Settles q' e' t r') : i = j := by
  have := not_settles_later hi hs hj hs'
  have := not_settles_later hj hs' hi hs
  omega

/-! ## Jobs that are given up

A worker gives up its job when it could not measure it. If it failed to start its stopwatch, the
body never runs and the job has no result until then; if it failed to stop it, the body has run and
its result stands. -/

/-- The job that a worker will give up, and why. It has been so since a reading failed, in three
stages. -/
def Stage.doomed? : Stage α → Option (Job α × Bytes)
  | .broken job what | .closing job what | .abandoning job what => some (job, what)
  | _ => none

/-- How an event changes what a worker will give up: it begins with a reading that fails, ends when
the job is given up, and is left alone by all else. -/
inductive Dooms (p : Pool α) (i : Nat) : Event α → Option (Job α × Bytes) → Prop
  | same {e : Event α} : Dooms p i e (p.view Stage.doomed? i)
  | unmeasured {job : Job α} {f : Fault} {now : Int} (hat : p.stage? i = some (.claimed job)) :
      Dooms p i (.work i (.begin (.error f) now)) (some (job, f.reason))
  | hasRun {e : Event α} {job : Job α} {what : Bytes}
      (hbehind : p.view Stage.behind? i = some job) :
      Dooms p i e (some (job, what))
  | released {job : Job α} {what : Bytes} (hat : p.stage? i = some (.abandoning job what)) :
      Dooms p i (.work i .abandon) none

/-- Every step changes `doomed?` of a worker as `Dooms` says. -/
theorem dooms_of_moves (h : Roster p) {e : Event α} {q : Pool α} (hm : Moves p e q) (i : Nat) :
    Dooms p i e (q.view Stage.doomed? i) := by
  have unseen (hsame : q.view Stage.doomed? i = p.view Stage.doomed? i) :
      Dooms p i e (q.view Stage.doomed? i) := by
    rw [hsame]
    exact .same
  have others := h.view_move (f := Stage.doomed?) hm
  -- a worker that takes up another stage, with what that stage shows
  have moved {id : Nat} {s s' : Stage α} (hat : p.stage? id = some s)
      (hview : q.view Stage.doomed? i = (p.setStage id s').view Stage.doomed? i)
      (hself : i = id → Dooms p i e s'.doomed?) : Dooms p i e (q.view Stage.doomed? i) := by
    rw [hview, view_setStage hat]
    split
    · next hi => exact hself hi
    · exact .same
  have kept {id : Nat} {s s' : Stage α} (hat : p.stage? id = some s)
      (hview : q.view Stage.doomed? i = (p.setStage id s').view Stage.doomed? i)
      (hsame : s'.doomed? = s.doomed?) :
      Dooms p i e (q.view Stage.doomed? i) := unseen (hview.trans (view_setStage_same hat hsame i))
  cases hm with
  | number | enqueue | startLate | startFails | start | drain | cancel | markUnstarted | markRunning
  | markLate | collect | concludeSame | conclude | survey | look | lookIdle | readQueued
  | readCompleted | readFailed => exact unseen (others rfl rfl rfl i)
  | retire hat | depart hat | take hat | begin hat | run hat | finish hat | count hat
  | countFailing hat | countFailed hat | shut hat | shutAgain hat | yield hat | leave hat
  | leaveLast hat =>
    exact kept hat rfl rfl
  | beginFails hat =>
    refine moved hat rfl ?_
    rintro rfl
    exact .unmeasured hat
  | finishFails hat =>
    refine moved hat rfl ?_
    rintro rfl
    exact .hasRun (view_of_stage hat)
  | abandon hat =>
    refine moved hat rfl ?_
    rintro rfl
    exact .released hat

/-- A worker that took this ticket could not start its stopwatch, because of the fault `f`. -/
def Unmeasured (start : Pool α) (es : List (Event α)) (t id : Nat) (f : Fault) : Prop :=
  ∃ i q now job, During start es i q (.work id (.begin (.error f) now)) ∧
    q.stage? id = some (.claimed job) ∧
    job.ticket = t

theorem Unmeasured.append {start : Pool α} {t id : Nat} {f : Fault} (h : Unmeasured start es t id f)
    (more : List (Event α)) : Unmeasured start (es ++ more) t id f := by
  obtain ⟨i, q, now, job, hd, hat, hjob⟩ := h
  exact ⟨i, q, now, job, hd.append more, hat, hjob⟩

/-- A worker gives up a job that has no result only if it could not start its stopwatch for it. One
whose stopwatch could not be stopped has stored the result before. -/
theorem unmeasured_of_doomed (hrun : (create config now).steps es = some p) {id : Nat}
    {job : Job α} {what : Bytes} (hdoomed : p.view Stage.doomed? id = some (job, what))
    (hnone : p.result? job.ticket = none) :
    ∃ f, f.reason = what ∧ Unmeasured (create config now) es job.ticket id f := by
  induction hrun using steps_induction with
  | nil => cases hdoomed
  | snoc es p e q hrun hstep ih =>
    have hm := moves_of_step hstep
    have htracked := tracked_of_steps hrun
    have hbefore : p.result? job.ticket = none := by
      rw [Option.eq_none_iff_forall_ne_some]
      intro r hr
      rw [(result?_step htracked hm _ r).mpr (.inl hr)] at hnone
      cases hnone
    -- the worker was in this position before, or the step put it there
    have hdooms := dooms_of_moves (roster_of_steps hrun) hm id
    generalize q.view Stage.doomed? id = seen at hdooms hdoomed
    cases hdooms with
    | same =>
      obtain ⟨f, hf, hun⟩ := ih hdoomed hbefore
      exact ⟨f, hf, hun.append _⟩
    | unmeasured hat =>
      cases hdoomed
      exact ⟨_, rfl, es.length, p, _, job, .last hrun _, hat, rfl⟩
    | hasRun hbehind =>
      cases hdoomed
      rw [htracked.behind_settled id job hbehind] at hbefore
      cases hbefore
    | released => cases hdoomed

theorem Stage.job?_of_doomed? {s : Stage α} {job : Job α} {what : Bytes}
    (h : s.doomed? = some (job, what)) :
    s.job? = some job := by
  cases s <;> simp_all [doomed?, job?]

theorem held_of_doomed {id : Nat} {job : Job α} {what : Bytes}
    (h : p.view Stage.doomed? id = some (job, what)) :
    p.held id = some job := by
  obtain ⟨s, hat, hs⟩ := view_eq_some.mp h
  exact view_eq_some.mpr ⟨s, hat, Stage.job?_of_doomed? hs⟩

/-- A job that its worker will give up (`doomed?`) gets no other result: it is in the hands of that
worker, hence neither in the queue nor with another one. -/
theorem Settles.of_doomed {tasks : List (Nat × Result α)} (h : Tracked tasks p) {id : Nat}
    {job : Job α} {what : Bytes} (hdoomed : p.view Stage.doomed? id = some (job, what))
    {e : Event α} {t : Nat} {r : Result α} (hs : Settles p e t r) (ht : job.ticket = t) :
    r = .error (.harness what) := by
  have hheld : p.held id = some job := held_of_doomed hdoomed
  have hleft : job.ticket < p.departed := h.held_departed id job hheld
  have queued (hmem : t ∈ p.queue.map Job.ticket) : False := by
    have := ((h.mem_queue t).mp hmem).1
    omega
  cases hs with
  | cancelled hmem => exact (queued hmem).elim
  | orphaned _ _ hmem => exact (queued hmem).elim
  | ran hat =>
    -- nobody else has the ticket, and this worker does not run it
    cases h.held_once _ _ _ _ (view_of_stage hat) hheld ht.symm
    rw [view_of_stage hat] at hdoomed
    cases hdoomed
  | givenUp hat =>
    cases h.held_once _ _ _ _ (view_of_stage hat) hheld ht.symm
    rw [view_of_stage hat] at hdoomed
    cases hdoomed
    rfl

/-- A worker that could not start its stopwatch (`Unmeasured`) has the job in hand until it gives it
up. -/
theorem doomed_of_unmeasured (hrun : (create config now).steps es = some p) {t id : Nat} {f : Fault}
    (hun : Unmeasured (create config now) es t id f) :
    p.result? t = some (.error (.harness f.reason)) ∨
      p.result? t = none ∧ ∃ job, p.view Stage.doomed? id = some (job, f.reason) ∧
        job.ticket = t := by
  induction hrun using steps_induction with
  | nil =>
    obtain ⟨i, q, now, job, ⟨_, he⟩, _⟩ := hun
    cases he
  | snoc es p e q hrun hstep ih =>
    have hm := moves_of_step hstep
    have htracked := tracked_of_steps hrun
    have hledger := result?_step htracked hm t
    -- a pending ticket stays so, with its worker, unless the step gives it the result
    have hnew {what : Bytes} (hnone : p.result? t = none)
        (hsettles : ∀ r, Settles p e t r → r = .error (.harness what))
        (hdoomed : q.result? t = none → ∃ job, q.view Stage.doomed? id = some (job, what) ∧
          job.ticket = t) :
        q.result? t = some (.error (.harness what)) ∨
          q.result? t = none ∧ ∃ job, q.view Stage.doomed? id = some (job, what) ∧
            job.ticket = t := by
      cases hq : q.result? t with
      | none => exact .inr ⟨rfl, hdoomed hq⟩
      | some r =>
        rcases (hledger r).mp hq with hr | hs
        · rw [hr] at hnone
          cases hnone
        · rw [hsettles r hs]
          exact .inl rfl
    obtain ⟨i, m, now', job, hd, hat, hjob⟩ := hun
    rcases during_snoc.mp hd with hd | ⟨_, hm', rfl⟩
    · rcases ih ⟨i, m, now', job, hd, hat, hjob⟩ with hr | ⟨hnone, job', hdoomed, hjob'⟩
      · exact .inl ((hledger _).mpr (.inl hr))
      · refine hnew hnone (fun r hs => hs.of_doomed htracked hdoomed hjob') fun hq => ?_
        have hdooms := dooms_of_moves (roster_of_steps hrun) hm id
        generalize q.view Stage.doomed? id = seen at hdooms
        cases hdooms with
        | same => exact ⟨job', hdoomed, hjob'⟩
        | unmeasured hat' =>
          rw [view_of_stage hat'] at hdoomed
          cases hdoomed
        | hasRun hbehind =>
          have hheld := Tracked.held_of_behind hbehind
          rw [held_of_doomed hdoomed] at hheld
          cases hheld
          rw [← hjob', htracked.behind_settled id job' hbehind] at hnone
          cases hnone
        | released hat' =>
          rw [view_of_stage hat'] at hdoomed
          cases hdoomed
          subst hjob'
          rw [(hledger _).mpr (.inr (.givenUp hat' hnone))] at hq
          cases hq
    · rw [hrun] at hm'
      cases hm'
      have hahead : p.view Stage.ahead? id = some job := view_of_stage hat
      refine hnew (hjob ▸ htracked.ahead_pending id job hahead) (fun r hs => nomatch hs) fun _ => ?_
      cases hm with
      | beginFails hat' =>
        rw [hat] at hat'
        cases hat'
        exact ⟨job, by rw [view_setStage hat, if_pos rfl]; rfl, hjob⟩

/-! ## What decides the result -/

/-- The body of the task with this ticket ran, at some moment of the run. -/
def Ran (start : Pool α) (es : List (Event α)) (t : Nat) : Prop :=
  ∃ i q id job watch, During start es i q (.work id .run) ∧
    q.stage? id = some (.running job watch) ∧ job.ticket = t

/-- The ticket was in the queue when a shutdown that does not wait emptied it. -/
def Dropped (start : Pool α) (es : List (Event α)) (t : Nat) : Prop :=
  ∃ i q, During start es i q (.close false) ∧ t ∈ q.queue.map Job.ticket

/-- The ticket was in the queue when the first worker could not measure its job, for the reason
`what`. -/
def Orphaned (start : Pool α) (es : List (Event α)) (t : Nat) (what : Bytes) : Prop :=
  ∃ i q id job, During start es i q (.work id .shut) ∧ q.stage? id = some (.broken job what) ∧
    q.failure = none ∧
    t ∈ q.queue.map Job.ticket

theorem Job.outcome_eq_ok {job : Job α} {v : α} : job.outcome = .ok v ↔ job.body = .ok v := by
  cases h : job.body <;> simp [Job.outcome, h]

theorem Job.outcome_eq_error {job : Job α} {f : Fault} :
    job.outcome = .error f ↔ ∃ cause, job.body = .error cause ∧ f = .task job.index cause := by
  cases h : job.body <;> simp [Job.outcome, h, eq_comm]

/-- A job in hand is the task that was handed in for its ticket, by `tracked_of_steps`. -/
theorem job_eq_of_held {i : Nat} {q : Pool α} {e : Event α}
    (hd : During (create config now) es i q e) {id : Nat} {job : Job α}
    (hheld : q.held id = some job) {index : Nat} {body : Result α}
    (htask : (submissions es)[job.ticket]? = some (index, body)) :
    job = ⟨job.ticket, index, body⟩ := by
  have hsame := submissions_of_take ((tracked_of_steps hd.1).held_task id job hheld)
  rw [htask] at hsame
  cases hsame
  rfl

/-- The results that a ticket can have, and what each of them tells about the run. -/
theorem result_cases (hrun : (create config now).steps es = some p) {t : Nat} {r : Result α}
    (hr : p.result? t = some r) {index : Nat} {body : Result α}
    (htask : (submissions es)[t]? = some (index, body)) :
    Ran (create config now) es t ∧ r = Job.outcome ⟨t, index, body⟩ ∨
      Dropped (create config now) es t ∧ r = .error .cancelled ∨
      ∃ what, r = .error (.harness what) ∧ (Orphaned (create config now) es t what ∨
        ∃ id f, f.reason = what ∧ Unmeasured (create config now) es t id f) := by
  obtain ⟨i, q, e, hd, hs⟩ := (result?_iff hrun).mp hr
  cases hs with
  | @ran id job watch hat =>
    have hjob := job_eq_of_held hd (view_of_stage hat) htask
    exact .inl ⟨⟨i, q, id, job, watch, hd, hat, rfl⟩, by rw [← hjob]⟩
  | cancelled hmem => exact .inr (.inl ⟨⟨i, q, hd, hmem⟩, rfl⟩)
  | orphaned hat hfirst hmem => exact .inr (.inr ⟨_, rfl, .inl ⟨i, q, _, _, hd, hat, hfirst, hmem⟩⟩)
  | givenUp hat hnone =>
    obtain ⟨f, hf, hun⟩ := unmeasured_of_doomed hd.1 (view_of_stage hat) hnone
    have hun := hun.append (es.drop i)
    rw [List.take_append_drop] at hun
    exact .inr (.inr ⟨_, rfl, .inr ⟨_, f, hf, hun⟩⟩)

/-- A task whose body `Ran` has as its result what the body left behind. -/
theorem result?_of_ran (hrun : (create config now).steps es = some p) {t : Nat}
    (hran : Ran (create config now) es t) {index : Nat} {body : Result α}
    (htask : (submissions es)[t]? = some (index, body)) :
    p.result? t = some (Job.outcome ⟨t, index, body⟩) := by
  obtain ⟨i, q, id, job, watch, hd, hat, rfl⟩ := hran
  have hjob := job_eq_of_held hd (view_of_stage hat) htask
  rw [← hjob]
  exact (result?_iff hrun).mpr ⟨i, q, _, hd, .ran hat⟩

section

variable (hrun : (create config now).steps es = some p) {t index : Nat} {body : Result α}
  (htask : (submissions es)[t]? = some (index, body))

include hrun htask

/-- A ticket has a value exactly if its body `Ran` and returned it. -/
theorem result?_ok_iff {v : α} :
    p.result? t = some (.ok v) ↔ Ran (create config now) es t ∧ body = .ok v := by
  constructor
  · intro hr
    rcases result_cases hrun hr htask with ⟨hran, hout⟩ | ⟨_, hout⟩ | ⟨_, hout, _⟩
    · exact ⟨hran, Job.outcome_eq_ok.mp hout.symm⟩
    · cases hout
    · cases hout
  · rintro ⟨hran, rfl⟩
    exact result?_of_ran hrun hran htask

/-- A ticket has a failure of its own exactly if its body `Ran` and failed, and it carries its own
index. -/
theorem result?_task_iff {k : Nat} {f : Fault} :
    p.result? t = some (.error (.task k f)) ↔ Ran (create config now) es t ∧ body = .error f ∧
      k = index := by
  constructor
  · intro hr
    rcases result_cases hrun hr htask with ⟨hran, hout⟩ | ⟨_, hout⟩ | ⟨_, hout, _⟩
    · obtain ⟨cause, hbody, hf⟩ := Job.outcome_eq_error.mp hout.symm
      cases hf
      exact ⟨hran, hbody, rfl⟩
    · cases hout
    · cases hout
  · rintro ⟨hran, rfl, rfl⟩
    exact result?_of_ran hrun hran htask

/-- A ticket is cancelled exactly if a shutdown `Dropped` it from the queue. -/
theorem result?_cancelled_iff :
    p.result? t = some (.error .cancelled) ↔ Dropped (create config now) es t := by
  constructor
  · intro hr
    rcases result_cases hrun hr htask with ⟨_, hout⟩ | ⟨hdropped, _⟩ | ⟨_, hout, _⟩
    · obtain ⟨_, _, hf⟩ := Job.outcome_eq_error.mp hout.symm
      cases hf
    · exact hdropped
    · cases hout
  · rintro ⟨i, q, hd, hmem⟩
    exact (result?_iff hrun).mpr ⟨i, q, _, hd, .cancelled hmem⟩

/-- A ticket is lost exactly if a worker that could not measure took it along (`Orphaned`), or had
it in hand (`Unmeasured`). -/
theorem result?_harness_iff {what : Bytes} :
    p.result? t = some (.error (.harness what)) ↔
      Orphaned (create config now) es t what ∨
        (p.result? t).isSome ∧ ∃ id f, f.reason = what ∧
          Unmeasured (create config now) es t id f := by
  constructor
  · intro hr
    rcases result_cases hrun hr htask with ⟨_, hout⟩ | ⟨_, hout⟩ | ⟨what', hout, hwhy⟩
    · obtain ⟨_, _, hf⟩ := Job.outcome_eq_error.mp hout.symm
      cases hf
    · cases hout
    · cases hout
      exact hwhy.imp_right fun hun => ⟨by rw [hr]; rfl, hun⟩
  · rintro (⟨i, q, id, job, hd, hat, hfirst, hmem⟩ | ⟨hsome, id, f, rfl, hun⟩)
    · exact (result?_iff hrun).mpr ⟨i, q, _, hd, .orphaned hat hfirst hmem⟩
    · refine (doomed_of_unmeasured hrun hun).resolve_right fun hpending => ?_
      rw [hpending.1] at hsome
      cases hsome

end

/-! ## Where a ticket stands -/

/-- The situations that the task of a ticket can be in: in the queue, with a worker, or settled. -/
inductive Standing
  | waiting | claimed | settled
deriving DecidableEq, Repr

/-- Once in the queue and with nobody; out of it, with one worker; or out of it, with a result. -/
def Stands (p : Pool α) (t : Nat) : Standing → Prop
  | .waiting => (p.queue.map Job.ticket).count t = 1 ∧
      (∀ i job, p.held i = some job → job.ticket ≠ t) ∧ p.result? t = none
  | .claimed => t ∉ p.queue.map Job.ticket ∧ (∃! i, ∃ job, p.held i = some job ∧ job.ticket = t) ∧
      p.result? t = none
  | .settled => t ∉ p.queue.map Job.ticket ∧ (p.result? t).isSome

theorem Tracked.stands {tasks : List (Nat × Result α)} (h : Tracked tasks p) {t : Nat}
    (ht : t < p.accepted) :
    ∃! s, p.Stands t s := by
  have hqueue := h.mem_queue t
  cases hr : p.result? t with
  | some r =>
    -- what waits in the queue has no result, so the ticket is not there
    have hnot : t ∉ p.queue.map Job.ticket := by
      intro hmem
      obtain ⟨job, hjob, rfl⟩ := List.mem_map.mp hmem
      rw [h.queued_pending job hjob] at hr
      cases hr
    refine ⟨.settled, ⟨hnot, by rw [hr]; rfl⟩, ?_⟩
    rintro (_ | _ | _) hs
    · exact nomatch hr.symm.trans hs.2.2
    · exact nomatch hr.symm.trans hs.2.2
    · rfl
  | none =>
    by_cases hmem : t ∈ p.queue.map Job.ticket
    · have hnodup : (p.queue.map Job.ticket).Nodup := h.queued ▸ List.nodup_range'
      -- a job in hand has left the queue, hence has a smaller ticket
      have hnobody (i : Nat) (job : Job α) (hi : p.held i = some job) : job.ticket ≠ t := by
        have := h.held_departed i job hi
        have := (hqueue.mp hmem).1
        omega
      refine ⟨.waiting, ⟨List.count_eq_one_of_mem hnodup hmem, hnobody, hr⟩, ?_⟩
      rintro (_ | _ | _) hs
      · rfl
      · exact absurd hmem hs.1
      · exact absurd hmem hs.1
    · -- the ticket has left the queue without a result, so somebody has it in hand
      have hleft : t < p.departed := Nat.lt_of_not_le fun hle => hmem (hqueue.mpr ⟨hle, ht⟩)
      obtain ⟨i, job, hi, hjob⟩ := h.pending_held t hleft hr
      have honly : ∃! i, ∃ job, p.held i = some job ∧ job.ticket = t := by
        refine ⟨i, ⟨job, hi, hjob⟩, ?_⟩
        rintro j ⟨job', hj, hjob'⟩
        exact h.held_once j i job' job hj hi (hjob'.trans hjob.symm)
      refine ⟨.claimed, ⟨hmem, honly, hr⟩, ?_⟩
      rintro (_ | _ | _) hs
      · exact absurd hjob (hs.2.1 i job hi)
      · rfl
      · exact nomatch hr ▸ hs.2

/-- Where all workers have exited and no job waits, every ticket has its result. -/
theorem settled_of_vacated (hrun : (create config now).steps es = some p) (hlive : p.live = 0)
    (hqueue : p.queue = []) {t : Nat} (ht : t < p.accepted) : (p.result? t).isSome := by
  rw [Option.isSome_iff_ne_none]
  intro hnone
  -- a ticket without a result would be in the hands of a worker, and there is none
  have hleft : t < p.departed := by rwa [departed, hqueue, List.length_nil, Nat.sub_zero]
  obtain ⟨i, job, hi, _⟩ := (tracked_of_steps hrun).pending_held t hleft hnone
  rw [held, (roster_of_steps hrun).view_of_live hlive rfl] at hi
  cases hi

/-- When the queue is closed and all workers have exited, every ticket has its result. The last
worker leaves only an empty queue behind, in a pool that runs in order. -/
theorem settled_of_exited (hmin : 1 ≤ config.minWorkers)
    (hmax : config.minWorkers ≤ config.maxWorkers) (horderly : Orderly (create config now) es p)
    (hclosing : p.closing = true) (hgone : ∀ w ∈ p.workers, w.stage = .gone) {t : Nat}
    (ht : t < p.accepted) :
    p.queue = [] ∧ (p.result? t).isSome := by
  have hrun := horderly.steps
  have hroster := roster_of_steps hrun
  obtain ⟨_, _, _, hstaffed, _⟩ := staffed_of_steps hmin hmax hrun
  have hlive : p.live = 0 := by
    rw [hroster.live, List.countP_eq_zero.mpr fun w hw => by simp [hgone w hw]]
    rfl
  have hloop : p.inLoop = 0 := by
    have := hroster.inLoop_le_live
    omega
  have hqueue : p.queue = [] :=
    (attended_of_orderly hmin hmax horderly).queue_eq_nil hclosing hstaffed.retiring hloop
  exact ⟨hqueue, settled_of_vacated hrun hlive hqueue ht⟩

/-- **Every task that was accepted is settled once.** After any run, its ticket is in the queue,
with one worker, or has a result, and only one of these (`Stands`). The result is given at one
moment and stays. It is the value or the failure of the body iff the body `Ran`, whether or not its
worker could measure it in the end; it says that the task was cancelled iff a shutdown found it in
the queue (`Dropped`); and it is a failure of the pool iff it was in the queue when the first worker
failed (`Orphaned`), or its own worker could not start its stopwatch (`Unmeasured`). Until such a
worker has given the ticket up, the ticket is with it. And when a pool is closed and all its workers
have exited, no ticket is without a result. -/
theorem every_task_is_settled_once (hmin : 1 ≤ config.minWorkers)
    (hmax : config.minWorkers ≤ config.maxWorkers) (hrun : (create config now).steps es = some p)
    {t : Nat} (ht : t < p.accepted) :
    (∃! s, p.Stands t s) ∧
      (∀ more q r, p.steps more = some q → p.result? t = some r → q.result? t = some r) ∧
      (∀ r, p.result? t = some r → ∃! i, ∃ q e, During (create config now) es i q e ∧
        Settles q e t r) ∧
      (∃ index body, (submissions es)[t]? = some (index, body) ∧
        (∀ v, p.result? t = some (.ok v) ↔ Ran (create config now) es t ∧ body = .ok v) ∧
        (∀ k f, p.result? t = some (.error (.task k f)) ↔
          Ran (create config now) es t ∧ body = .error f ∧ k = index) ∧
        (p.result? t = some (.error .cancelled) ↔ Dropped (create config now) es t) ∧
        (∀ what, p.result? t = some (.error (.harness what)) ↔
          Orphaned (create config now) es t what ∨
            (p.result? t).isSome ∧ ∃ id f, f.reason = what ∧
              Unmeasured (create config now) es t id f) ∧
        (∀ id f, Unmeasured (create config now) es t id f → p.result? t = none →
          ∃ job, p.view Stage.doomed? id = some (job, f.reason) ∧ job.ticket = t) ∧
        (∀ f, p.result? t = some (.error f) → f = .cancelled ∨ (∃ what, f = .harness what) ∨
          ∃ cause, f = .task index cause)) ∧
      (Orderly (create config now) es p → p.closing = true → (∀ w ∈ p.workers, w.stage = .gone) →
        p.queue = [] ∧ (p.result? t).isSome) := by
  have htracked := tracked_of_steps hrun
  have hlt : t < (submissions es).length := htracked.accepted ▸ ht
  refine ⟨htracked.stands ht, fun more q r hmore => result?_of_steps hrun hmore, fun r hr => ?_,
    ⟨(submissions es)[t].1, (submissions es)[t].2, List.getElem?_eq_getElem hlt, ?_⟩,
    fun horderly hclosing hgone => settled_of_exited hmin hmax horderly hclosing hgone ht⟩
  · obtain ⟨i, q, e, hd, hs⟩ := (result?_iff hrun).mp hr
    refine ⟨i, ⟨q, e, hd, hs⟩, ?_⟩
    rintro j ⟨q', e', hd', hs'⟩
    exact settled_once hd' hs' hd hs
  · have htask := List.getElem?_eq_getElem hlt
    refine ⟨fun v => result?_ok_iff hrun htask, fun k f => result?_task_iff hrun htask,
      result?_cancelled_iff hrun htask, fun what => result?_harness_iff hrun htask,
      fun id f hun hnone => ?_, fun f hf => ?_⟩
    · -- a job that was given up has its result already
      rcases doomed_of_unmeasured hrun hun with hsome | ⟨_, hdoomed⟩
      · rw [hsome] at hnone
        cases hnone
      · exact hdoomed
    · rcases result_cases hrun hf htask with ⟨_, hout⟩ | ⟨_, hout⟩ | ⟨what, hout, _⟩
      · obtain ⟨cause, _, hcause⟩ := Job.outcome_eq_error.mp hout.symm
        exact .inr (.inr ⟨cause, hcause⟩)
      · exact .inl (Except.error.inj hout)
      · exact .inr (.inl ⟨what, Except.error.inj hout⟩)

/-- One worker cannot stop its stopwatch and the other cannot start its own, with a third task in
the queue. -/
def twoFailures : List (Event Nat) :=
  [.start (fun _ => true) true 0, .enqueue 0 (.ok 7), .enqueue 1 (.ok 8), .enqueue 2 (.ok 9),
    .work 0 .claim, .work 1 .claim, .work 0 (.begin (.ok none) 1), .work 0 .run,
    .work 0 (.finish (.error .closed) 2), .work 1 (.begin (.error .noWorker) 2), .work 1 .shut]

/-- The first task keeps its value, the second is still with its worker, the third is lost. -/
theorem settled_once_twoFailures :
    ∃ p : Pool Nat, (create { minWorkers := 2, maxWorkers := 2 } 0).steps twoFailures = some p ∧
      2 < p.accepted ∧ p.result? 0 = some (.ok 7) ∧ (∃! s, p.Stands 0 s) ∧ p.result? 1 = none ∧
      (∃! s, p.Stands 1 s) ∧ p.result? 2 = some (.error (.harness Fault.noWorker.reason)) ∧
      (∃! s, p.Stands 2 s) := by
  have stands {p : Pool Nat}
      (hrun : (create { minWorkers := 2, maxWorkers := 2 } 0).steps twoFailures = some p)
      {t : Nat} (ht : t < p.accepted) : ∃! s, p.Stands t s :=
    (every_task_is_settled_once (by decide) (by decide) hrun ht).1
  exact ⟨_, rfl, by decide, rfl, stands rfl (by decide), rfl, stands rfl (by decide), rfl,
    stands rfl (by decide)⟩

end Headroom.Pool
