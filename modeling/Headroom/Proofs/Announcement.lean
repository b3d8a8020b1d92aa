import Headroom.Proofs.Accounting

/-!
# What a stopped pool shows

Three steps stop a pool that was started: the exit of its last worker, the end of a shutdown that
waits, and the step of a shutdown that moves the phase, if it finds no worker left. Only the first
two also set the number of workers to 0 and put both into the latest snapshot. The third relies on a
worker to do so, but the workers have left already: between the closing of the queue and this step
(`Overtaken`).

* **`Announced.move`**: all other steps keep what a stopped pool shows.
* **`announced_of_stopped`**: a run in which no shutdown is overtaken ends, if stopped, with a pool
  that says so.
* **`stopped_is_announced_iff`**: with shutdowns that do not wait this is the only way, since
  nothing later mends it.
-/

namespace Headroom.Pool

variable {α : Type}

/-! ## Workers by phase -/

/-- The number of workers that a pool wants: none before the start, and at least one while
it runs. -/
structure Manned (p : Pool α) : Prop where
  unstarted : p.phase = .created → p.active = 0 ∧ p.latest.active = 0
  running : p.phase = .running → 0 < p.active

namespace Manned

variable {p q : Pool α}

theorem carry (h : Manned p) (hphase : q.phase = p.phase) (hactive : q.active = p.active)
    (hlatest : q.latest.active = p.latest.active) : Manned q := by
  refine ⟨fun hc => ?_, fun hr => ?_⟩
  · rw [hactive, hlatest]
    exact h.unstarted (hphase ▸ hc)
  · rw [hactive]
    exact h.running (hphase ▸ hr)

theorem past (hphase : 2 ≤ q.phase.rank) : Manned q :=
  ⟨fun hc => by rw [hc] at hphase; exact absurd hphase (by decide),
    fun hr => by rw [hr] at hphase; exact absurd hphase (by decide)⟩

/-- A decision of the controller (`Resizing`) leaves a running pool with a worker that it wants,
since it goes below no minimum. -/
theorem resize (h : Manned p) (hphase : p.phase = .running) (hmin : 1 ≤ p.config.minWorkers)
    {launches : Nat → Bool} {e : Estimate Float} (hq : Resizing launches e p q) : 0 < q.active := by
  have hpos := h.running hphase
  cases hq with
  | hold | refused => exact hpos
  | keep | hire =>
    show 0 < p.active + 1
    omega
  | dismiss _ hmore =>
    show 0 < p.active - 1
    omega

/-- Every step keeps a pool `Manned`, if its settings ask for at least one worker. -/
theorem move (h : Manned p) (hmin : 1 ≤ p.config.minWorkers) {e : Event α} (hm : Moves p e q) :
    Manned q := by
  cases hm with
  | start _ hsome =>
    refine ⟨nofun, fun _ => ?_⟩
    exact Int.natCast_pos.mpr (List.length_pos_iff.mpr hsome)
  | markUnstarted | conclude | leaveLast => exact past (Nat.le_succ 2)
  | markRunning =>
    refine past ?_
    dsimp only
    split <;> decide
  | @look _ l _ r hphase hresize =>
    have hwatched : Manned (p.watched l.now) := h.carry rfl rfl rfl
    have hactive : 0 < r.active := hwatched.resize hphase hmin hresize
    have hrunning : r.phase = .running := by cases hresize <;> exact hphase
    exact ⟨fun hc => absurd (hrunning.symm.trans hc) nofun, fun _ => hactive⟩
  | readFailed => exact ⟨fun hc => ⟨(h.unstarted hc).1, (h.unstarted hc).1⟩, h.running⟩
  | yield =>
    by_cases hphase : p.phase = .running
    · exact past (by simp [setStage, hphase, Phase.rank])
    · exact h.carry (if_neg hphase) rfl rfl
  | _ => exact h.carry rfl rfl rfl

end Manned

theorem manned_of_steps {config : Config} {now : Int} {es : List (Event α)} {p : Pool α}
    (hmin : 1 ≤ config.minWorkers) (hrun : (create config now).steps es = some p) : Manned p := by
  induction hrun using steps_induction with
  | nil => exact ⟨fun _ => ⟨rfl, rfl⟩, nofun⟩
  | snoc es p e q hrun hstep ih =>
    exact ih.move ((config_of_steps hrun).symm ▸ hmin) (moves_of_step hstep)

/-! ## The end is announced -/

/-- All that the pool shows says that it has stopped: it wants no workers, and its latest snapshot
has the phase `stopped` and no active workers. -/
structure Announced (p : Pool α) : Prop where
  active : p.active = 0
  phase : p.latest.phase = some .stopped
  shown : p.latest.active = 0

/-- The step of a shutdown that moves the phase comes after the last worker of the running pool has
left. It then stops the pool at once, and nobody is left to say so. -/
def Event.Overtaken (p : Pool α) (e : Event α) : Prop := e = .mark ∧ p.phase = .running ∧ p.live = 0

/-- A step that stops the pool announces it, unless it is `Overtaken`; and what was announced stays
so. -/
theorem Announced.move {p q : Pool α} (h : p.phase = .stopped → Announced p) (hmanned : Manned p)
    {e : Event α} (hm : Moves p e q) (hnot : ¬e.Overtaken p) (hq : q.phase = .stopped) :
    Announced q := by
  cases hm with
  | start => cases hq
  | markUnstarted hphase => exact ⟨(hmanned.unstarted hphase).1, rfl, (hmanned.unstarted hphase).2⟩
  | markRunning hphase =>
    -- the only step that stops a pool and changes nothing of what it shows
    dsimp only at hq
    split at hq
    · next hlive => exact absurd ⟨rfl, hphase, hlive⟩ hnot
    · cases hq
  | conclude | leaveLast => exact ⟨rfl, rfl, rfl⟩
  | look hphase hresize => cases hresize <;> exact nomatch hphase.symm.trans hq
  | readFailed => exact ⟨(h hq).active, congrArg some hq, (h hq).active⟩
  | yield =>
    have hp : p.phase = .stopped := by
      change (if p.phase = .running then .shuttingDown else p.phase) = .stopped at hq
      split at hq
      · cases hq
      · exact hq
    exact ⟨(h hp).active, (h hp).phase, (h hp).shown⟩
  | _ => exact ⟨(h hq).active, (h hq).phase, (h hq).shown⟩

/-- Nothing changes the number of workers of a stopped pool, except the end of a shutdown that
waits. -/
theorem Moves.active_of_stopped {p q : Pool α} {e : Event α} (hm : Moves p e q)
    (hp : p.phase = .stopped) (he : ∀ now, e ≠ .conclude now) : q.active = p.active := by
  cases hm with
  | start hphase | look hphase | leaveLast _ _ hphase => exact nomatch hphase.symm.trans hp
  | conclude => exact absurd rfl (he _)
  | _ => rfl

section

variable {config : Config} {now : Int} {es : List (Event α)} {p : Pool α}

/-- **A run in which no shutdown is `Overtaken`**, and which stops the pool, ends with a pool that
says so. -/
theorem announced_of_stopped (hmin : 1 ≤ config.minWorkers)
    (hrun : (create config now).steps es = some p)
    (hnever : ∀ i q e, During (create config now) es i q e → ¬e.Overtaken q)
    (hstopped : p.phase = .stopped) :
    Announced p := by
  induction hrun using steps_induction with
  | nil => cases hstopped
  | snoc es p e q hrun hstep ih =>
    have hbefore := ih fun i r e' hd => hnever i r e' (hd.append _)
    have hnot : ¬e.Overtaken p := hnever _ _ _ (.last hrun e)
    exact Announced.move hbefore (manned_of_steps hmin hrun) (moves_of_step hstep) hnot hstopped

/-- A stopped pool that still wants workers goes on to want them, so an overtaken shutdown shows for
ever. -/
theorem active_of_steps {q : Pool α} (hrun : p.steps es = some q) (hstopped : p.phase = .stopped)
    (hasty : ∀ e ∈ es, ∀ t, e ≠ .conclude t) : q.phase = .stopped ∧ q.active = p.active := by
  induction hrun using steps_induction with
  | nil => exact ⟨hstopped, rfl⟩
  | snoc es m e q _ hstep ih =>
    obtain ⟨hphase, hactive⟩ := ih fun e' he' => hasty e' (List.mem_append_left _ he')
    have hm := moves_of_step hstep
    have hrank := hm.rank_le
    rw [hphase] at hrank
    exact ⟨Phase.eq_stopped hrank, (hm.active_of_stopped hphase (hasty e (by simp))).trans hactive⟩

/-- **When a stopped pool says so**, `Announced`: in a run in which no shutdown waits, whatever the
order in which callers, workers and the monitor take their steps, exactly if no shutdown was
`Overtaken` by the exit of the last worker. -/
theorem stopped_is_announced_iff (hmin : 1 ≤ config.minWorkers)
    (hrun : (create config now).steps es = some p) (hasty : ∀ e ∈ es, ∀ t, e ≠ .conclude t)
    (hstopped : p.phase = .stopped) :
    Announced p ↔ ∀ i q e, During (create config now) es i q e → ¬e.Overtaken q := by
  refine ⟨?_, fun hnever => announced_of_stopped hmin hrun hnever hstopped⟩
  rintro hsays i q e hd ⟨rfl, hphase, hlive⟩
  obtain ⟨r, hstep, hrest⟩ := hd.next hrun
  have hafter : r.phase = .stopped ∧ r.active = q.active := by
    cases moves_of_step hstep with
    | markRunning => exact ⟨if_pos hlive, rfl⟩
    | markUnstarted hcreated => exact nomatch hphase.symm.trans hcreated
    | markLate _ hnot => exact absurd hphase hnot
  -- the running pool wanted workers, and nothing after that takes the number back
  have hlater := active_of_steps hrest hafter.1 fun e he => hasty e (List.mem_of_mem_drop he)
  have hpos := (manned_of_steps hmin hd.1).running hphase
  have hzero := hsays.active
  omega

end

/-- The queue is closed, the only worker leaves, and then the phase moves. -/
example : ∃ p, (create (α := Nat) {} 0).steps
      [.start (fun _ => true) true 0, .read, .read, .read, .close false, .work 0 .claim,
        .work 0 (.leave 1), .mark] = some p ∧
    p.phase = .stopped ∧ p.workers.length = 1 ∧ p.live = 0 ∧ p.active = 1 ∧
    p.latest.phase = some .running :=
  ⟨_, rfl, rfl, rfl, rfl, rfl, rfl⟩

end Headroom.Pool
