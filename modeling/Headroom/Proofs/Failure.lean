import Headroom.Proofs.Settlement
import Headroom.Proofs.Submission

/-!
# Failures of a pool

A worker that could not measure its job closes the pool. It does so in steps: it closes the queue
and loses the jobs in it, then it moves the phase, and only then it gives up its own job. Others may
fail in the meantime; they find the reason of the first and leave it.

* **`first_failure`**: the reason that a pool has failed for is that of the first worker that came
  to close the queue.
* **`failed_of_harness`**: where a task has failed with the pool, the pool has a reason to have
  failed.
* **`closing_or_late`**: that worker has the phase moved before it gets on to its own job.

The main statement is `failure_closes_first`.
-/

namespace Headroom.Pool

variable {α : Type}

/-! ## The reason stays -/

/-- A reason to have failed is never replaced by another: `shut` notes one only where there
is none. -/
theorem Moves.failure {p q : Pool α} {e : Event α} (hm : Moves p e q) {what : Bytes}
    (h : p.failure = some what) :
    q.failure = some what := by
  cases hm with
  | shut _ hfirst => rw [h] at hfirst; cases hfirst
  | look _ hresize => cases hresize <;> exact h
  | _ => exact h

theorem failure_of_steps {p q : Pool α} {es : List (Event α)} (hrun : p.steps es = some q)
    {what : Bytes} (h : p.failure = some what) : q.failure = some what := by
  induction hrun using steps_induction with
  | nil => exact h
  | snoc es m e q _ hstep ih => exact (moves_of_step hstep).failure ih

/-- A worker that comes to close the queue leaves a pool that has a reason to have failed. -/
theorem failed_of_shut {p q : Pool α} {id : Nat} (h : p.step (.work id .shut) = some q) :
    ∃ what, q.failure = some what := by
  cases moves_of_step h with
  | shut => exact ⟨_, rfl⟩
  | shutAgain _ hagain => exact Option.isSome_iff_exists.mp hagain

section

variable {config : Config} {now : Int} {es : List (Event α)} {p : Pool α}

/-- The reason of a pool to have failed, `failure`, is that of the first worker that came to close
the queue. -/
theorem first_failure (hrun : (create config now).steps es = some p) {first : Bytes}
    (h : p.failure = some first) :
    ∃ i q id job, During (create config now) es i q (.work id .shut) ∧
      q.stage? id = some (.broken job first) ∧ q.failure = none := by
  induction hrun using steps_induction with
  | nil => cases h
  | snoc es m e p hrun hstep ih =>
    have earlier (hbefore : m.failure = some first) :
        ∃ i q id job, During (create config now) (es ++ [e]) i q (.work id .shut) ∧
          q.stage? id = some (.broken job first) ∧ q.failure = none := by
      obtain ⟨i, q, id, job, hd, hrest⟩ := ih hbefore
      exact ⟨i, q, id, job, hd.append _, hrest⟩
    cases moves_of_step hstep with
    | @shut id job what hat hfirst =>
      cases h
      exact ⟨_, m, id, job, .last hrun _, hat, hfirst⟩
    | look _ hresize => cases hresize <;> exact earlier h
    | _ => exact earlier h

/-- Nobody came to close the queue while there was no reason to. -/
theorem le_of_unfailed {i j id id' : Nat} {q q' : Pool α}
    (hi : During (create config now) es i q (.work id .shut)) (hfirst : q.failure = none)
    (hj : During (create config now) es j q' (.work id' .shut)) : i ≤ j := by
  by_contra hlt
  obtain ⟨r, hstep, hrest⟩ := (hj.take (Nat.lt_of_not_le hlt)).next hi.1
  obtain ⟨what, hwhat⟩ := failed_of_shut hstep
  rw [failure_of_steps hrest hwhat] at hfirst
  cases hfirst

/-! ## Before a failure is seen -/

/-- Where a task has failed with the pool, the pool has a reason to have failed. -/
theorem failed_of_harness (hrun : (create config now).steps es = some p) {t : Nat} {what : Bytes}
    (ht : p.result? t = some (.error (.harness what))) : ∃ first, p.failure = some first := by
  obtain ⟨i, q, e, hd, hs⟩ := (result?_iff hrun).mp ht
  obtain ⟨r, hstep, hrest⟩ := hd.next hrun
  have later : (∃ first, r.failure = some first) → ∃ first, p.failure = some first :=
    fun ⟨first, hfirst⟩ => ⟨first, failure_of_steps hrest hfirst⟩
  generalize hr : (Except.error (.harness what) : Result α) = result at hs
  cases hs with
  | @ran _ job _ _ =>
    obtain ⟨_, _, hcause⟩ := Job.outcome_eq_error.mp hr.symm
    cases hcause
  | cancelled => cases hr
  | orphaned => exact later (failed_of_shut hstep)
  | givenUp hat =>
    have hsome := (sealed_of_steps hd.1).failing _ (Roster.mem_workers hat) rfl
    obtain ⟨first, hfirst⟩ := Option.isSome_iff_exists.mp hsome
    exact later ⟨first, (moves_of_step hstep).failure hfirst⟩

/-! ## Why a worker gives up -/

/-- A worker comes to give up its job (`doomed?`) when a reading fails, be it at the start or at the
end of the job. -/
theorem Moves.doomed {p q : Pool α} {e : Event α} (hm : Moves p e q) (h : Roster p) {id : Nat}
    {job : Job α} {what : Bytes} (hq : q.view Stage.doomed? id = some (job, what)) :
    p.view Stage.doomed? id = some (job, what) ∨
      ∃ f now, f.reason = what ∧ (e = .work id (.begin (.error f) now) ∨
        e = .work id (.finish (.error f) now)) := by
  have others := h.view_move (f := Stage.doomed?) hm
  -- a worker whose stage says the same about it, or nothing any more
  have older {i : Nat} {t s : Stage α} (hat : p.stage? i = some t)
      (hview : q.view Stage.doomed? id = (p.setStage i s).view Stage.doomed? id)
      (hs : s.doomed? = t.doomed? ∨ s.doomed? = none) :
      p.view Stage.doomed? id = some (job, what) :=
    view_of_setStage hat hs (hview.symm.trans hq)
  have fails {i : Nat} {t : Stage α} {job' : Job α} {f : Fault} (hat : p.stage? i = some t)
      (hview : q.view Stage.doomed? id =
        (p.setStage i (.broken job' f.reason)).view Stage.doomed? id) :
      p.view Stage.doomed? id = some (job, what) ∨ id = i ∧ f.reason = what := by
    rw [hview, view_setStage hat] at hq
    split at hq
    · next heq =>
      cases hq
      exact .inr ⟨heq, rfl⟩
    · exact .inl hq
  cases hm with
  | number | enqueue | startLate | startFails | start | drain | cancel | markUnstarted | markRunning
  | markLate | collect | concludeSame | conclude | survey | look | lookIdle | readQueued
  | readCompleted | readFailed => exact .inl ((others rfl rfl rfl id).symm.trans hq)
  | retire hat | depart hat | take hat | begin hat | run hat | finish hat | count hat
  | countFailing hat | countFailed hat | abandon hat | leave hat | leaveLast hat =>
    exact .inl (older hat rfl (.inr rfl))
  | shut hat | shutAgain hat | yield hat => exact .inl (older hat rfl (.inl rfl))
  | beginFails hat =>
    exact (fails hat rfl).imp_right fun ⟨hid, hf⟩ => ⟨_, _, hf, .inl (by rw [hid])⟩
  | finishFails hat =>
    exact (fails hat rfl).imp_right fun ⟨hid, hf⟩ => ⟨_, _, hf, .inr (by rw [hid])⟩

/-- A worker that will give up its job (`doomed?`) had a reading that failed, for the reason it
gives. -/
theorem reading_failed (hrun : (create config now).steps es = some p) {id : Nat} {job : Job α}
    {what : Bytes} (h : p.view Stage.doomed? id = some (job, what)) :
    ∃ i q f now', f.reason = what ∧
      (During (create config now) es i q (.work id (.begin (.error f) now')) ∨
      During (create config now) es i q (.work id (.finish (.error f) now'))) := by
  induction hrun using steps_induction with
  | nil => cases h
  | snoc es m e p hrun hstep ih =>
    rcases (moves_of_step hstep).doomed (roster_of_steps hrun) h with hbefore | ⟨f, now', hf,
      rfl | rfl⟩
    · obtain ⟨i, q, f, now', hf, hd⟩ := ih hbefore
      exact ⟨i, q, f, now', hf, hd.imp (·.append _) (·.append _)⟩
    · exact ⟨_, m, f, now', hf, .inl (.last hrun _)⟩
    · exact ⟨_, m, f, now', hf, .inr (.last hrun _)⟩

/-! ## The phase moves first -/

/-- The job of a worker that has closed the queue and still has to move the phase. -/
def Stage.closing? : Stage α → Option (Job α)
  | .closing job _ => some job
  | _ => none

theorem Moves.closing_or_late {p q : Pool α} {e : Event α} (hm : Moves p e q) (h : Roster p)
    {id : Nat} {job : Job α} (hstarted : p.phase ≠ .created)
    (hp : p.view Stage.closing? id = some job) :
    q.view Stage.closing? id = some job ∨ 2 ≤ q.phase.rank := by
  have others := h.view_move (f := Stage.closing?) hm
  -- what another worker does, or this one in no other stage than `closing`
  have stays {i : Nat} {t s : Stage α} (hat : p.stage? i = some t)
      (hview : q.view Stage.closing? id = (p.setStage i s).view Stage.closing? id)
      (ht : t.closing? = none) :
      q.view Stage.closing? id = some job := by
    rw [hview, view_setStage hat]
    split
    · next heq =>
      rw [heq, view_of_stage hat, ht] at hp
      cases hp
    · exact hp
  cases hm with
  | number | enqueue | startLate | startFails | start | drain | cancel | markUnstarted | markRunning
  | markLate | collect | concludeSame | conclude | survey | look | lookIdle | readQueued
  | readCompleted | readFailed => exact .inl ((others rfl rfl rfl id).trans hp)
  | retire hat | depart hat | take hat | begin hat | run hat | finish hat | count hat
  | countFailing hat | countFailed hat | abandon hat | leave hat | leaveLast hat | beginFails hat
  | finishFails hat | shut hat | shutAgain hat => exact .inl (stays hat rfl rfl)
  | yield =>
    right
    show 2 ≤ Phase.rank (if p.phase = .running then .shuttingDown else p.phase)
    cases hphase : p.phase with
    | created => exact absurd hphase hstarted
    | running | shuttingDown | stopped => decide

section

variable (hmin : 1 ≤ config.minWorkers) (hmax : config.minWorkers ≤ config.maxWorkers)
include hmin hmax

/-- A worker that has closed the queue is still about to move the phase, or the pool runs
no longer. -/
theorem closing_or_late (hrun : (create config now).steps es = some p) {id : Nat} {job : Job α}
    (hp : p.view Stage.closing? id = some job) {more : List (Event α)} {q : Pool α}
    (hmore : p.steps more = some q) :
    q.view Stage.closing? id = some job ∨ 2 ≤ q.phase.rank := by
  induction hmore using steps_induction with
  | nil => exact .inl hp
  | snoc more m e q hm hstep ih =>
    have hbefore := steps_trans hrun hm
    rcases ih with hclosing | hlate
    · obtain ⟨_, _, _, hstaffed, _⟩ := staffed_of_steps hmin hmax hbefore
      obtain ⟨s, hat, _⟩ := view_eq_some.mp hclosing
      exact (moves_of_step hstep).closing_or_late (roster_of_steps hbefore) (hstaffed.started hat)
        hclosing
    · exact .inr (Nat.le_trans hlate (moves_of_step hstep).rank_le)

/-- Once the first worker that failed has given up its job, the pool runs no longer. -/
theorem late_of_abandoned (hrun : (create config now).steps es = some p) {i k id : Nat}
    {q m : Pool α} (hi : During (create config now) es i q (.work id .shut))
    (hfirst : q.failure = none) (hk : During (create config now) es k m (.work id .abandon)) :
    p.phase ≠ .running := by
  obtain ⟨m', habandon, hend⟩ := hk.next hrun
  cases moves_of_step habandon with
  | @abandon _ job what hat =>
    rcases Nat.lt_trichotomy k i with hlt | rfl | hlt
    · -- a worker gives up its job only when the pool has a reason to have failed
      have hsome := (sealed_of_steps hk.1).failing _ (Roster.mem_workers hat) rfl
      obtain ⟨first, hfailed⟩ := Option.isSome_iff_exists.mp hsome
      obtain ⟨_, hstep, hrest⟩ := (hk.take hlt).next hi.1
      rw [failure_of_steps hrest ((moves_of_step hstep).failure hfailed)] at hfirst
      cases hfirst
    · cases hi.2.symm.trans hk.2
    · -- the worker has closed the queue, and is about to move the phase
      obtain ⟨r, hshut, hrest⟩ := (hi.take hlt).next hk.1
      have hclosing : ∃ job, r.view Stage.closing? id = some job := by
        cases moves_of_step hshut with
        | @shut _ job _ hat => exact ⟨job, (view_setStage hat _ id).trans (if_pos rfl)⟩
        | shutAgain _ hagain => rw [hfirst] at hagain; cases hagain
      obtain ⟨job, hclosing⟩ := hclosing
      have hafter : (create config now).steps (es.take i ++ [.work id .shut]) = some r :=
        steps_snoc.mpr ⟨q, hi.1, hshut⟩
      rcases closing_or_late hmin hmax hafter hclosing hrest with hstill | hlate
      · -- when it gives up its job, the worker is past that stage
        rw [view_of_stage hat] at hstill
        cases hstill
      · intro hphase
        have hle := Nat.le_trans (moves_of_step habandon).rank_le (rank_of_steps hend)
        rw [hphase] at hle
        exact absurd (Nat.le_trans hlate hle) (by decide)

end

/-! ## Closed before anybody can tell -/

/-- A pool that has failed accepts nothing, has an empty queue, and refuses with its reason
(`poolFailed`). -/
theorem closed_of_failure (hrun : (create config now).steps es = some p) {first : Bytes}
    (h : p.failure = some first) :
    p.accepting = false ∧ p.queue = [] ∧ p.refusal = .poolFailed first := by
  have hsealed := sealed_of_steps hrun
  obtain ⟨hclosing, hqueue⟩ := hsealed.failed (by rw [h]; rfl)
  exact ⟨by rw [hsealed.accepting, hclosing]; rfl, hqueue, by rw [refusal, h]; rfl⟩

/-- Whatever happens while a submission waits, it meets the reason that the pool has failed for. -/
theorem Submission.of_failure (hrun : (create config now).steps es = some p) {first : Bytes}
    (h : p.failure = some first) {body : Result α} {limitMs : Option Int} {fs : List (Event α)}
    {q : Pool α} {outcome : Except Fault Nat} (hcall : Submission body limitMs p fs q outcome) :
    outcome = .error (.poolFailed first) := by
  obtain ⟨hwait, hentry⟩ := hcall
  have hwait : p.steps (.number :: _) = some _ := steps_cons rfl hwait
  obtain ⟨hclosed, _, hrefusal⟩ :=
    closed_of_failure (steps_trans hrun hwait) (failure_of_steps hwait h)
  rw [← hrefusal]
  exact hentry.of_closed hclosed

/-- **A failure closes the pool before anybody can tell.** Where a task has failed with the pool,
the first worker that came to close the queue did so for a reason `first`, the wording of the
reading that failed it. From then on, for ever: the pool accepts nothing and its queue is empty,
every submission is refused with that reason, whoever else fails, and once that worker has given up
its own job the pool runs no longer. -/
theorem failure_closes_first (hmin : 1 ≤ config.minWorkers)
    (hmax : config.minWorkers ≤ config.maxWorkers) (hrun : (create config now).steps es = some p)
    {t : Nat} {what : Bytes} (ht : p.result? t = some (.error (.harness what))) :
    ∃ i q id job first,
      (During (create config now) es i q (.work id .shut) ∧ q.stage? id = some (.broken job first) ∧
        ∀ j q' id', During (create config now) es j q' (.work id' .shut) → i ≤ j) ∧
      (∃ k q' f t', f.reason = first ∧
        (During (create config now) es k q' (.work id (.begin (.error f) t')) ∨
        During (create config now) es k q' (.work id (.finish (.error f) t')))) ∧
      ((Fault.poolFailed first).kind = .poolFailure ∧
        (Fault.poolFailed first).message? =
          some (text "pool failed: worker harness error: " ++ first)) ∧
      ∀ more r, p.steps more = some r →
        r.accepting = false ∧ r.queue = [] ∧
        (∀ body limitMs fs r' outcome, Submission body limitMs r fs r' outcome →
          outcome = .error (.poolFailed first)) ∧
        (∀ (s : Simulation α), s.pool = r → ∀ body plan limitMs,
          (s.submit body plan limitMs).2 = .error (.poolFailed first)) ∧
        (∀ k m, During (create config now) (es ++ more) k m (.work id .abandon) →
          r.phase ≠ .running) := by
  obtain ⟨first, hfailure⟩ := failed_of_harness hrun ht
  obtain ⟨i, q, id, job, hd, hat, hfirst⟩ := first_failure hrun hfailure
  refine ⟨i, q, id, job, first, ⟨hd, hat, fun j q' id' hj => le_of_unfailed hd hfirst hj⟩, ?_,
    ⟨rfl, rfl⟩, fun more r hmore => ?_⟩
  · obtain ⟨k, q', f, t', hf, hk⟩ := reading_failed hd.1 (view_of_stage hat)
    -- the reading that failed is before the closing, so it is part of the whole run
    have later {e : Event α} (h : During (create config now) (es.take i) k q' e) :
        During (create config now) es k q' e := by
      have happ := h.append (es.drop i)
      rwa [List.take_append_drop] at happ
    exact ⟨k, q', f, t', hf, hk.imp later later⟩
  · have hend := steps_trans hrun hmore
    have hfailed := failure_of_steps hmore hfailure
    obtain ⟨hclosed, hqueue, hrefusal⟩ := closed_of_failure hend hfailed
    refine ⟨hclosed, hqueue, fun _ _ _ _ _ hcall => hcall.of_failure hend hfailed, ?_, fun k m hk =>
      ?_⟩
    · rintro s rfl body plan limitMs
      rw [Simulation.submit_of_closed hclosed, hrefusal]
    · exact late_of_abandoned hmin hmax hend (hd.append more) hfirst hk

end

/-- The worker that failed second closes the queue first; the other one finds it closed, and both
give up. -/
def bothGiveUp : List (Event Nat) :=
  twoFailures ++ [.read, .read, .read, .work 0 .shut, .work 0 .abandon, .work 1 .yield,
    .work 1 .abandon]

theorem failure_closes_first_bothGiveUp :
    ∃ p : Pool Nat, (create { minWorkers := 2, maxWorkers := 2 } 0).steps bothGiveUp = some p ∧
      p.result? 1 = some (.error (.harness Fault.noWorker.reason)) ∧
      ∃ first, ∀ more r, p.steps more = some r → r.accepting = false ∧ r.queue = [] ∧
        ∀ (s : Simulation Nat), s.pool = r → ∀ body plan limitMs,
          (s.submit body plan limitMs).2 = .error (.poolFailed first) := by
  have hrun : ∃ p : Pool Nat,
    (create { minWorkers := 2, maxWorkers := 2 } 0).steps bothGiveUp = some p ∧
      p.result? 1 = some (.error (.harness Fault.noWorker.reason)) := ⟨_, rfl, rfl⟩
  obtain ⟨p, hrun, ht⟩ := hrun
  obtain ⟨_, _, _, _, first, _, _, _, hlater⟩ :=
    failure_closes_first (by decide) (by decide) hrun ht
  refine ⟨p, hrun, ht, first, fun more r hmore => ?_⟩
  obtain ⟨hclosed, hqueue, _, hsubmit, _⟩ := hlater more r hmore
  exact ⟨hclosed, hqueue, hsubmit⟩

end Headroom.Pool
