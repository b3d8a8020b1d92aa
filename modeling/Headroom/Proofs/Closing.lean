import Headroom.Proofs.Accounting

/-!
# Jobs in a closed queue

A queue that is closed to be drained still has jobs in it. `Attended` says that somebody is there to
run them: more workers are in their loop than are asked to leave. It holds after every orderly run,
`attended_of_orderly`; where a shutdown closes the queue of a pool that was never started, with a
job in it, nobody comes: such a pool is `Forsaken`. A job gets there only between the look of a
shutdown and its closing, and `attended_or_forsaken` says that there is no third kind of pool.

The step that matters is the closing itself, `Attended.drain`. If the pool runs, the account of its
workers balances, so at least one of them stays; if it is past running, the queue was closed before.
-/

namespace Headroom.Pool

variable {α : Type}

/-- A pool past running is closed, the jobs in a closed queue have a worker who stays, and a pool
that is stopped has no worker left. -/
structure Attended (p : Pool α) : Prop where
  late : p.phase ≠ .created → p.phase ≠ .running → p.closing = true
  attended : p.closing = true → p.queue ≠ [] → p.retiring < p.inLoop
  ended : p.phase = .stopped → p.live = 0

/-- A closed pool that never had a worker. Unless it is started after all, the jobs in its queue
stay there. -/
structure Forsaken (p : Pool α) : Prop where
  closing : p.closing = true
  workers : p.workers = []
  phase : p.phase = .created ∨ p.phase = .stopped

/-- In a running pool the account of the workers is `Balanced`, so that a job in its queue has a
worker who stays. -/
theorem Staffed.stays {count : Nat} {p : Pool α} (h : Staffed count p) (hpos : 1 ≤ count)
    (hphase : p.phase = .running) (hqueue : p.queue ≠ []) : p.retiring < p.inLoop := by
  obtain ⟨hin, hleast, _⟩ := h.balanced ⟨hphase, .inr hqueue⟩
  omega

namespace Attended

variable {count : Nat} {p q : Pool α}

/-- A step that changes neither the phase, the closing nor the accounts of the workers keeps a pool
`Attended`, if it fills no queue that was empty. -/
theorem carry (h : Attended p) (hphase : q.phase = p.phase) (hclosing : q.closing = p.closing)
    (hqueue : q.queue ≠ [] → p.queue ≠ []) (hretiring : q.retiring = p.retiring)
    (hloop : q.inLoop = p.inLoop) (hlive : q.live = p.live) : Attended q := by
  refine ⟨fun hc hr => ?_, fun hc hq => ?_, fun hs => ?_⟩
  · rw [hphase] at hc hr
    rw [hclosing]
    exact h.late hc hr
  · rw [hclosing] at hc
    rw [hretiring, hloop]
    exact h.attended hc (hqueue hq)
  · rw [hphase] at hs
    rw [hlive]
    exact h.ended hs

/-- A closed pool with an empty queue has nothing to attend to, so it is `Attended`. -/
theorem of_empty (hclosing : q.closing = true) (hqueue : q.queue = [])
    (hended : q.phase = .stopped → q.live = 0) : Attended q :=
  ⟨fun _ _ => hclosing, fun _ hq => absurd hqueue hq, hended⟩

/-- A running pool is attended to, by `Staffed.stays`. -/
theorem of_running (hstaffed : Staffed count p) (hpos : 1 ≤ count) (hphase : p.phase = .running) :
    Attended p :=
  ⟨fun _ hnot => absurd hphase hnot, fun _ => hstaffed.stays hpos hphase,
    fun hs => nomatch hphase.symm.trans hs⟩

/-- A worker that stays in its loop, or stays out of it, changes nothing. -/
theorem setStage (h : Attended p) (hroster : Roster p) {id : Nat} {t : Stage α}
    (hat : p.stage? id = some t) (s : Stage α) (hs : s.looping = t.looping) :
    Attended (p.setStage id s) := by
  have hcount := hroster.inLoop_setStage hat s
  rw [hs] at hcount
  exact h.carry rfl rfl (fun hq => hq) rfl (by omega) rfl

/-- A queue that has to be drained is closed only where somebody attends to it: either the pool
runs, or it was closed before. -/
theorem drain (h : Attended p) (hphase : p.phase ≠ .running) (hdue : p.startsFirst true = false) :
    Attended { p with accepting := false, closing := true } := by
  refine ⟨fun _ _ => rfl, fun _ hqueue => ?_, h.ended⟩
  have hqueue : p.queue ≠ [] := hqueue
  have hcreated : p.phase ≠ .created := by
    intro hphase
    simp [startsFirst, hphase, hqueue] at hdue
  exact h.attended (h.late hcreated hphase) hqueue

/-- Every step of an `Orderly` run keeps a pool `Attended`. That the pool is staffed before and
after the step is known of every run, by `staffed_of_steps`. -/
theorem move {count' : Nat} (h : Attended p) (hroster : Roster p) (hsealed : Sealed p)
    (hbefore : Staffed count p) (hafter : Staffed count' q) (hpos : 1 ≤ count') {e : Event α}
    (hdue : e.Due p) (hm : Moves p e q) : Attended q := by
  by_cases hrunning : q.phase = .running
  · exact of_running hafter hpos hrunning
  have failed {id : Nat} {t : Stage α} (hat : p.stage? id = some t) (ht : t.failing = true) :
      p.closing = true ∧ p.queue = [] :=
        hsealed.failed (hsealed.failing _ (Roster.mem_workers hat) ht)
  cases hm with
  | number | startLate | startFails | markLate | concludeSame | survey | readQueued | readCompleted
  | readFailed => exact h.carry rfl rfl id rfl rfl rfl
  | enqueue hopen =>
    -- a pool that is open is not closing, so nothing is claimed about its queue
    have hclosing : p.closing = false := by simpa [hopen] using hsealed.accepting
    exact ⟨h.late, fun hc => (nomatch hclosing.symm.trans hc), h.ended⟩
  | start => exact absurd rfl hrunning
  | drain => exact h.drain hrunning (hdue.2 true rfl)
  | cancel => exact of_empty rfl rfl h.ended
  | markUnstarted hphase =>
    have hlive : p.live = 0 := hroster.live_of_nobody (hbefore.unstarted hphase).1
    exact ⟨fun _ _ => hdue.1, h.attended, fun _ => hlive⟩
  | markRunning =>
    refine ⟨fun _ _ => hdue.1, h.attended, fun hs => ?_⟩
    dsimp only at hs
    split at hs
    · next hlive => exact hlive
    · cases hs
  | conclude => exact ⟨fun _ _ => hdue.1.1, h.attended, fun _ => hdue.1.2.1⟩
  | collect hlive =>
    refine ⟨fun _ _ => hdue.1.1, fun hc hq => ?_, fun _ => hlive⟩
    -- with nobody left, a job in the queue would not have been attended before either
    have := h.attended hc hq
    have := hroster.inLoop_le_live
    have := hbefore.retiring
    omega
  | look hphase hresize => cases hresize <;> exact absurd hphase hrunning
  | lookIdle => exact h.carry rfl rfl id rfl (inLoop_reap _) rfl
  | @retire id hat =>
    refine ⟨h.late, fun hc hq => ?_, h.ended⟩
    -- the worker that leaves the loop and the request that it answers cancel out
    have hcount : (p.setStage id .leaving).inLoop + 1 = p.inLoop :=
      hroster.inLoop_setStage hat .leaving
    have := h.attended hc hq
    show p.retiring - 1 < (p.setStage id .leaving).inLoop
    omega
  | depart _ _ hqueue hclosing => exact of_empty hclosing hqueue h.ended
  | take hat _ hqueue =>
    exact (h.setStage hroster hat (.claimed _) rfl).carry rfl rfl (fun _ => by
      simp [Pool.setStage, hqueue])
      rfl rfl rfl
  | begin hat => exact h.setStage hroster hat (.running _ _) rfl
  | beginFails hat | finishFails hat => exact h.setStage hroster hat (.broken _ _) rfl
  | run hat => exact (h.setStage hroster hat (.ran _ _) rfl).carry rfl rfl id rfl rfl rfl
  | finish hat => exact (h.setStage hroster hat (.measured _) rfl).carry rfl rfl id rfl rfl rfl
  | count hat | countFailed hat =>
    exact (h.setStage hroster hat .free rfl).carry rfl rfl id rfl rfl rfl
  | countFailing hat => exact (h.setStage hroster hat (.counted _) rfl).carry rfl rfl id rfl rfl rfl
  | shut => exact of_empty rfl rfl h.ended
  | shutAgain hat => exact h.setStage hroster hat (.abandoning _ _) rfl
  | yield hat =>
    -- a worker fails only after the queue was closed and emptied
    refine of_empty (failed hat rfl).1 (failed hat rfl).2 fun hs => h.ended ?_
    have hs : (if p.phase = .running then .shuttingDown else p.phase) = .stopped := hs
    split at hs
    · cases hs
    · exact hs
  | abandon hat => exact of_empty (failed hat rfl).1 (failed hat rfl).2 h.ended
  | leave hat =>
    have hgone := h.setStage hroster hat .gone rfl
    refine ⟨hgone.late, hgone.attended, fun hs => ?_⟩
    have hnone := h.ended hs
    have hpos := hroster.live_pos hat rfl
    omega
  | leaveLast hat hlast hphase =>
    have hclosing : p.closing = true := h.late (by simp [hphase]) (by simp [hphase])
    exact ⟨fun _ _ => hclosing, (h.setStage hroster hat .gone rfl).attended, fun _ => hlast⟩

/-- When the queue is closed and all workers have exited, no job is left in it. -/
theorem queue_eq_nil (h : Attended p) (hclosing : p.closing = true) (hret : 0 ≤ p.retiring)
    (hloop : p.inLoop = 0) : p.queue = [] := by
  by_cases hq : p.queue = []
  · exact hq
  · have := h.attended hclosing hq
    omega

end Attended

/-- A pool that is closed before it has workers gets them and is `Attended`, or stays `Forsaken`. -/
theorem Forsaken.move {count : Nat} {p q : Pool α} (h : Forsaken p) (hsealed : Sealed p)
    (hafter : Staffed count q) (hpos : 1 ≤ count) {e : Event α} (hturn : e.InTurn p)
    (hm : Moves p e q) :
    Attended q ∨ Forsaken q := by
  obtain ⟨hclosing, hworkers, hphase⟩ := h
  cases hm with
  | number | startLate | startFails | markLate | concludeSame | survey | readQueued | readCompleted
  | readFailed => exact .inr ⟨hclosing, hworkers, hphase⟩
  | drain | cancel => exact .inr ⟨rfl, hworkers, hphase⟩
  | enqueue hopen =>
    rw [hsealed.accepting, hclosing] at hopen
    cases hopen
  | start => exact .inl (.of_running hafter hpos rfl)
  | markUnstarted | conclude => exact .inr ⟨hclosing, hworkers, .inr rfl⟩
  | markRunning hrunning | look hrunning =>
    rw [hrunning] at hphase
    rcases hphase with hphase | hphase <;> cases hphase
  | collect => exact .inr ⟨hclosing, rfl, hphase⟩
  | lookIdle => exact .inr ⟨hclosing, by simp [sketch, reap, watched, markLook, hworkers], hphase⟩
  | retire hat | depart hat | take hat | begin hat | beginFails hat | run hat | finish hat
  | finishFails hat | count hat | countFailing hat | countFailed hat | shut hat | shutAgain hat
  | yield hat | abandon hat | leave hat | leaveLast hat => exact (Roster.nobody hworkers hat).elim

section

variable {config : Config} {now : Int} {es₀ : List (Event α)} {p : Pool α}
  (hmin : 1 ≤ config.minWorkers) (hmax : config.minWorkers ≤ config.maxWorkers)

include hmin hmax

/-- A pool that is `Attended` stays so while the parts of every shutdown come when they are due. -/
theorem Attended.of_orderly (h : Attended p) (hrun : (create config now).steps es₀ = some p)
    {es : List (Event α)} {q : Pool α} (hthen : Orderly p es q) : Attended q := by
  induction hthen with
  | nil => exact h
  | snoc hsofar hdue hstep ih =>
    have hsteps := steps_trans hrun hsofar.steps
    obtain ⟨_, _, _, hbefore, _⟩ := staffed_of_steps hmin hmax hsteps
    obtain ⟨_, hpos, _, hafter, _⟩ := staffed_of_steps hmin hmax (steps_snoc.mpr ⟨_, hsteps, hstep⟩)
    exact ih.move (roster_of_steps hsteps) (sealed_of_steps hsteps) hbefore hafter hpos hdue
      (moves_of_step hstep)

omit hmin hmax in
theorem attended_create (config : Config) (now : Int) : Attended (create (α := α) config now) :=
  ⟨fun hc => absurd rfl hc, nofun, nofun⟩

theorem attended_of_orderly (h : Orderly (create config now) es₀ p) : Attended p :=
  (attended_create config now).of_orderly hmin hmax (steps_nil _) h

/-- Where others come between the look of a shutdown and its closing, a job may be left in the queue
of a pool that never had a worker; there is no other way. -/
theorem attended_or_forsaken (h : Staged (create config now) es₀ p) : Attended p ∨ Forsaken p := by
  induction h with
  | nil => exact .inl (attended_create config now)
  | @snoc es p q e hrun hturn hstep ih =>
    have hsteps := hrun.steps
    obtain ⟨_, _, _, hbefore, _⟩ := staffed_of_steps hmin hmax hsteps
    obtain ⟨_, hpos, _, hafter, _⟩ := staffed_of_steps hmin hmax (steps_snoc.mpr ⟨_, hsteps, hstep⟩)
    have hm := moves_of_step hstep
    rcases ih with hattended | hforsaken
    · by_cases hlook : ∀ wait, e = .close wait → p.startsFirst wait = false
      · exact .inl (hattended.move (roster_of_steps hsteps) (sealed_of_steps hsteps) hbefore hafter
          hpos
          ⟨hturn, hlook⟩ hm)
      · -- the queue is closed although the pool should have been started for the jobs in it
        push Not at hlook
        obtain ⟨wait, rfl, hfirst⟩ := hlook
        have hcreated : p.phase = .created := by
          simp only [startsFirst, ne_eq, Bool.not_eq_false, Bool.and_eq_true, decide_eq_true_eq]
            at hfirst
          exact hfirst.1.1
        have hworkers := (hbefore.unstarted hcreated).1
        cases hm with
        | drain | cancel => exact .inr ⟨rfl, hworkers, .inl hcreated⟩
    · exact hforsaken.move (sealed_of_steps hsteps) hafter hpos hturn hm

end

end Headroom.Pool
