import Headroom.Proofs.Samples
import Headroom.Simulation.Run

/-!
# A pool without readings

The counter of computing time may have no reading, as the one that knows only the wall clock. Then a
pool learns nothing about its jobs, and it must not act as if it did: it keeps the workers that it
was opened with.

Nothing that a stage passes on is measured, and each stage is looked at once.

* **`Stopwatch.stop_without_reading`**: the sample of a job that ends without a reading is
  unmeasured.
* **`Window.mem_records`**: what a window holds was recorded, so that no slot is measured if no
  sample is.
* **`Window.estimate_of_unmeasured`**: the estimate of such a window is blank, at every moment.
* **`resizing_of_insufficient`**: the monitor leaves the pool alone after an estimate that is not
  sufficient.

`Sightless.move` puts them together for one step and `sightless_of_steps` for a run; `Crewed` has
the size of the pool, from the start that opened it on.
-/

namespace Headroom

/-- The estimate that rests on nothing: no ratio, no samples, and not sufficient. -/
def Estimate.blank : Estimate Float := ⟨0.0, 0, 0, false⟩

theorem Stopwatch.stop_without_reading (w : Stopwatch) (threads now : Int) :
    (w.stop threads now none).measured = false := by
  show (elapsedCpu? w.cpu none).isSome = false
  cases w.cpu <;> rfl

theorem Mailbox.mem_push {m : Mailbox} {s x : Sample} (hx : x ∈ (m.push s).pending) :
    x ∈ m.pending ∨ x = s := by
  by_cases hfull : m.full = true
  · rw [push_of_full hfull] at hx
    exact .inl hx
  · rw [push_of_room hfull] at hx
    simpa using hx

namespace Window

theorem mem_record {w : Window} {s x : Sample} (hx : x ∈ (w.record s).slots) :
    x ∈ w.slots ∨ x = s := by
  by_cases hs : enters s = true
  · rw [record_of_enters hs] at hx
    dsimp only at hx
    split at hx
    · exact Array.mem_push.mp hx
    · exact Array.mem_or_eq_of_mem_setIfInBounds hx
  · rw [record_of_not_enters hs] at hx
    exact .inl hx

/-- What a window holds was there before, or it was recorded since. -/
theorem mem_records {w : Window} {samples : List Sample} {x : Sample}
    (hx : x ∈ (samples.foldl record w).slots) :
    x ∈ w.slots ∨ x ∈ samples := by
  induction samples generalizing w with
  | nil => exact .inl hx
  | cons s rest ih =>
    rcases ih hx with hslot | hrest
    · rcases mem_record hslot with hold | rfl
      · exact .inl hold
      · exact .inr List.mem_cons_self
    · exact .inr (List.mem_cons_of_mem s hrest)

/-- Samples that were not measured make no estimate but `Estimate.blank`. The time that they took
does not count either, so this does not depend on how many samples are needed. -/
theorem estimate_of_unmeasured {w : Window} (h : ∀ s ∈ w.slots, s.measured = false) (now : Int) :
    w.estimate now = .blank := by
  have hnone : w.slots.toList.filter (w.counts now) = [] := by
    rw [List.filter_eq_nil_iff]
    intro s hs
    simp [counts, h s (Array.mem_toList_iff.mp hs)]
  rw [estimate, hnone]
  simp [Estimate.ofSamples, Estimate.blank, Sample.span]

end Window

namespace Pool

variable {α : Type}

/-- The event does not give a reading of the computing time: there is none, or the counter fails. -/
def Event.Blind : Event α → Prop
  | .work _ (.begin reading _) | .work _ (.finish reading _) => ∀ used, reading ≠ .ok (some used)
  | _ => True

theorem Event.Blind.reading_eq_none {id : Nat} {cpu : Option Int} {now : Int}
    (h : (Event.work (α := α) id (.finish (.ok cpu) now)).Blind) : cpu = none := by
  cases cpu with
  | none => rfl
  | some used => exact absurd rfl (h used)

/-- A worker acts on what its counter gives, and the one that knows only the wall clock gives
nothing. So every action in a simulation with that counter is `Blind`. -/
theorem blind_of_wallOnly {s : Simulation α} (hmeter : s.meter = .source .wallOnly) {w : Worker α}
    {action : Action} (hnext : s.nextAction? w = some action) :
    (Event.work (α := α) w.id action).Blind := by
  have hread (used : Int) : s.meter.read s.host used = .ok none := by rw [hmeter]; rfl
  cases hstage : w.stage with
  | claimed | ran =>
    simp only [Simulation.nextAction?, hstage, hread, Option.some.injEq] at hnext
    subst hnext
    exact nofun
  | free | running | closing | leaving =>
    simp only [Simulation.nextAction?, hstage] at hnext
    split at hnext <;> cases hnext
    trivial
  | measured | counted | broken | abandoning | gone =>
    simp only [Simulation.nextAction?, hstage] at hnext
    cases hnext <;> trivial

/-! ## What is measured -/

/-- The samples that an event puts into the mailbox are unmeasured if it is `Blind`. -/
theorem unmeasured_of_blind {p q : Pool α} {e : Event α} (he : e.Blind) :
    ∀ s ∈ Mailbox.pushed (p.mailedBy e q), s.measured = false := by
  unfold mailedBy
  split
  · next id cpu now =>
    rw [he.reading_eq_none]
    split
    · next watch _ =>
        simpa [Mailbox.pushed, Mailbox.Use.samples] using watch.stop_without_reading p.active now
    · exact fun s hs => absurd hs List.not_mem_nil
  all_goals exact fun s hs => absurd hs List.not_mem_nil

/-! ## What the pool knows -/

/-- The pool has measured nothing, and says so. Nobody was asked to leave. -/
structure Sightless (p : Pool α) : Prop where
  pending : ∀ s ∈ p.mailbox.pending, s.measured = false
  slots : ∀ s ∈ p.window.slots, s.measured = false
  beta : p.latest.beta = .blank
  drafted : ∀ d, p.draft = some d → d.beta = .blank
  looking : ∀ l, p.looking = some l → l.estimate = .blank
  trend : p.trend = .stable
  shown : p.latest.trend = some .stable
  retiring : p.retiring = 0

theorem verdict_of_insufficient {p : Pool α} {e : Estimate Float} (he : e.sufficient = false) :
    p.verdict e = (.hold, 0) := by
  simp [verdict, Scaling.Rules.evaluate, he]

/-- An estimate that is not sufficient changes nothing but the trend and the `streak` of low
readings. -/
theorem resizing_of_insufficient {p q : Pool α} {launches : Nat → Bool} {e : Estimate Float}
    (he : e.sufficient = false) (hq : Resizing launches e p q) :
    q = { p with streak := 0, trend := .stable } := by
  have hverdict := verdict_of_insufficient (p := p) he
  cases hq with
  | hold => rw [noted, hverdict]; rfl
  | keep hup | hire hup | refused hup =>
    rw [hverdict] at hup
    exact absurd hup (by decide)
  | dismiss hdown =>
    rw [hverdict] at hdown
    exact absurd hdown (by decide)

namespace Sightless

variable {p q : Pool α}

/-- What the monitor takes out of the mailbox is unmeasured, and so is what the window
holds then. -/
theorem collected (h : Sightless p) : ∀ s ∈ p.collectSamples.window.slots, s.measured = false := by
  intro s hs
  rcases Window.mem_records hs with hslot | hpending
  · exact h.slots s hslot
  · exact h.pending s hpending

theorem estimate (h : Sightless p) (now : Int) : p.collectSamples.window.estimate now = .blank :=
  Window.estimate_of_unmeasured h.collected now

/-- What a look of the monitor leaves of the pool: only what it notes down is new. -/
theorem resized (h : Sightless p) {launches : Nat → Bool} {l : Look} (hlooking : p.looking = some l)
    (hq : Resizing launches l.estimate (p.watched l.now) q) :
    q = { p.watched l.now with streak := 0, trend := .stable } :=
  resizing_of_insufficient (by rw [h.looking l hlooking]; rfl) hq

/-- A step without a reading keeps the pool sightless. The look of the monitor has only a `blank`
estimate to go by. -/
theorem move (h : Sightless p) {e : Event α} (he : e.Blind) (hm : Moves p e q) : Sightless q := by
  cases hm with
  | @start _ _ now =>
    refine ⟨h.pending, h.slots, h.beta, fun d hd => ?_, h.looking, h.trend, h.shown, h.retiring⟩
    cases hd
    exact Window.estimate_of_unmeasured h.slots now
  | concludeSame =>
    exact ⟨nofun, h.collected, h.beta, h.drafted, h.looking, h.trend, h.shown, h.retiring⟩
  | @conclude now =>
    exact ⟨nofun, h.collected, h.estimate now, nofun, h.looking, h.trend, congrArg some h.trend,
      h.retiring⟩
  | @survey now =>
    refine ⟨nofun, h.collected, h.beta, h.drafted, fun l hl => ?_, h.trend, h.shown, h.retiring⟩
    cases hl
    exact h.estimate now
  | look _ hresize hlooking =>
    rw [h.resized hlooking hresize]
    refine ⟨h.pending, h.slots, h.beta, fun d hd => ?_, nofun, rfl, h.shown, h.retiring⟩
    cases hd
    exact h.looking _ hlooking
  | lookIdle _ hlooking =>
    refine ⟨h.pending, h.slots, h.beta, fun d hd => ?_, nofun, rfl, h.shown, h.retiring⟩
    cases hd
    exact h.looking _ hlooking
  | readQueued hdraft | readCompleted hdraft =>
    have hbeta := h.drafted _ hdraft
    refine ⟨h.pending, h.slots, h.beta, fun d hd => ?_, h.looking, h.trend, h.shown, h.retiring⟩
    cases hd
    exact hbeta
  | readFailed hdraft =>
    exact ⟨h.pending, h.slots, h.drafted _ hdraft, nofun, h.looking, h.trend, congrArg some h.trend,
      h.retiring⟩
  | retire _ hret =>
    -- nobody was asked to leave, so nobody follows such a request
    rw [h.retiring] at hret
    exact absurd hret (by decide)
  | @finish id job watch cpu now hat =>
    refine ⟨fun s hs => ?_, h.slots, h.beta, h.drafted, h.looking, h.trend, h.shown, h.retiring⟩
    rcases Mailbox.mem_push hs with hold | rfl
    · exact h.pending s hold
    · rw [he.reading_eq_none]
      exact watch.stop_without_reading p.active now
  | _ => exact ⟨h.pending, h.slots, h.beta, h.drafted, h.looking, h.trend, h.shown, h.retiring⟩

end Sightless

/-- A run of `Blind` events ends with a pool that is `Sightless`. -/
theorem sightless_of_steps {config : Config} {now : Int} {es : List (Event α)} {p : Pool α}
    (h : (create config now).steps es = some p) (hes : ∀ e ∈ es, e.Blind) : Sightless p := by
  induction h using steps_induction with
  | nil => exact ⟨nofun, by simp [create, Window.empty], rfl, nofun, nofun, rfl, rfl, rfl⟩
  | snoc es p e q _ hstep ih =>
    have hbefore := ih fun e' he' => hes e' (List.mem_append_left [e] he')
    exact hbefore.move (hes e (by simp)) (moves_of_step hstep)

/-! ## How many workers there are -/

/-- The pool has as many workers as the start in `s` launched, and has not tried to launch another
one. It shows them once nobody holds the lock any more. -/
structure Crewed (launches : Nat → Bool) (s p : Pool α) : Prop where
  active : p.active = s.launched launches
  shown : p.draft = none → p.latest.active = s.launched launches
  attempts : p.nextWorker = s.nextWorker + s.config.minWorkers.toNat

theorem crewed_opened (launches : Nat → Bool) (monitor : Bool) (now : Int) (p : Pool α)
    (e : Estimate Float) (rate : Float) :
    Crewed launches p ((p.opened launches monitor now).sketch e rate 0 now) := by
  have hcount : ((recruits (α := α) launches p.nextWorker p.config.minWorkers.toNat).length : Int) =
      p.launched launches := by rw [length_recruits, launched]
  exact ⟨hcount, (fun hdraft => by cases hdraft), rfl⟩

/-- In a `Sightless` pool no step launches a worker or asks one to leave. -/
theorem Crewed.move {launches : Nat → Bool} {s p q : Pool α} (h : Crewed launches s p)
    (hsightless : Sightless p) {e : Event α} (hm : Moves p e q) (hopened : p.phase ≠ .created)
    (hq : q.phase ≠ .stopped) :
    Crewed launches s q := by
  cases hm with
  | start hphase | startFails hphase | markUnstarted hphase => exact absurd hphase hopened
  | conclude | leaveLast => exact absurd rfl hq
  | look _ hresize hlooking =>
    rw [hsightless.resized hlooking hresize]
    exact ⟨h.active, nofun, h.attempts⟩
  | lookIdle | readQueued | readCompleted => exact ⟨h.active, nofun, h.attempts⟩
  | readFailed =>
    -- what is published is the number of workers itself
    exact ⟨h.active, fun _ => h.active, h.attempts⟩
  | _ => exact ⟨h.active, h.shown, h.attempts⟩

/-- A pool that is neither as it was made nor stopped runs, if it was as it was made before. -/
theorem Moves.running_of_created {p q : Pool α} {e : Event α} (hm : Moves p e q)
    (hp : p.phase = .created) (hcreated : q.phase ≠ .created) (hstopped : q.phase ≠ .stopped) :
    q.phase = .running := by
  cases hm with
  | start => rfl
  | conclude | leaveLast | markUnstarted => exact absurd rfl hstopped
  | look hphase | markRunning hphase => cases hp.symm.trans hphase
  | yield =>
    refine absurd ?_ hcreated
    show (if p.phase = .running then .shuttingDown else p.phase) = Phase.created
    rw [hp]
    rfl
  | _ => exact absurd hp hcreated

/-- A run of `Blind` events has the workers of its start (`Crewed`), as long as the pool is not
stopped. -/
theorem crewed_of_steps {config : Config} {now : Int} {es : List (Event α)} {p : Pool α}
    (h : (create config now).steps es = some p) (hes : ∀ e ∈ es, e.Blind)
    (hcreated : p.phase ≠ .created) (hstopped : p.phase ≠ .stopped) :
    ∃ i q launches monitor t, During (create config now) es i q (.start launches monitor t) ∧
      q.phase = .created ∧ 1 ≤ q.launched launches ∧ Crewed launches q p := by
  induction h using steps_induction with
  | nil => exact absurd rfl hcreated
  | snoc es m e p hrun hstep ih =>
    have hm := moves_of_step hstep
    have hbefore : ∀ e' ∈ es, e'.Blind := fun e' he' => hes e' (List.mem_append_left [e] he')
    by_cases hopens : m.phase = .created
    · -- this is the step that opens the pool
      have hrunning := hm.running_of_created hopens hcreated hstopped
      obtain hphase | ⟨_, launches, monitor, t, rfl, hsome, rfl⟩ := hm.opens hrunning
      · cases hopens.symm.trans hphase
      · have hlaunched : m.launched launches ≠ 0 := fun hzero => hsome (launched_eq_zero.mp hzero)
        exact ⟨es.length, m, launches, monitor, t, .last hrun _, hopens, by omega,
          crewed_opened launches monitor t m _ _⟩
    · -- the pool was opened before, and a pool that is not stopped now was not stopped then
      have hgoes : m.phase ≠ .stopped := by
        intro hphase
        have hle := hm.rank_le
        rw [hphase] at hle
        exact hstopped (Phase.eq_stopped hle)
      obtain ⟨i, q, launches, monitor, t, hduring, hq, hpos, hcrewed⟩ := ih hbefore hopens hgoes
      exact ⟨i, q, launches, monitor, t, hduring.append [e], hq, hpos,
        hcrewed.move (sightless_of_steps hrun hbefore) hm hopens hstopped⟩

/-- **Without readings the pool keeps its size.** Whatever callers, workers and the monitor did, if
no event gave a reading of the computing time (`Event.Blind`), as none does with a counter that
knows only the wall clock: every sample that was taken is unmeasured; every estimate, of the window
at any moment and in the latest snapshot, is `Estimate.blank`; the trend is stable and the latest
snapshot says so; and from the start that opened the pool until the pool has stopped, the number of
workers is the one that this start launched, nobody is asked to leave, and nobody else is launched.
The snapshot shows that number as soon as it can be seen, which is when no other is put together. -/
theorem size_kept_without_readings {config : Config} {now : Int} {es : List (Event α)} {p : Pool α}
    (hrun : (create config now).steps es = some p) (hblind : ∀ e ∈ es, e.Blind) :
    (∀ s ∈ Mailbox.pushed ((create config now).mail es), s.measured = false) ∧
      (∀ t, p.window.estimate t = ⟨0.0, 0, 0, false⟩) ∧ p.latest.beta = ⟨0.0, 0, 0, false⟩ ∧
      p.trend = .stable ∧ p.latest.trend = some .stable ∧ p.retiring = 0 ∧
      (p.phase = .running ∨ p.phase = .shuttingDown →
        ∃ i q launches monitor t, During (create config now) es i q (.start launches monitor t) ∧
          q.phase = .created ∧ 1 ≤ q.launched launches ∧ p.active = q.launched launches ∧
          (p.draft = none → p.latest.active = q.launched launches) ∧
          p.nextWorker = q.nextWorker + config.minWorkers.toNat) ∧
      ∀ (s : Simulation α) (w : Worker α) (action : Action), s.meter = .source .wallOnly →
        s.nextAction? w = some action → (Event.work (α := α) w.id action).Blind := by
  have hsightless := sightless_of_steps hrun hblind
  refine ⟨fun s hs => ?_, Window.estimate_of_unmeasured hsightless.slots, hsightless.beta,
    hsightless.trend, hsightless.shown, hsightless.retiring, fun hphase =>
      ?_, fun _ _ _ hmeter hnext => blind_of_wallOnly hmeter hnext⟩
  · obtain ⟨u, hu, hsample⟩ := List.mem_flatMap.mp hs
    obtain ⟨i, q, e, r, hduring, _, hmailed⟩ := (mem_along hrun).mp hu
    have he : e.Blind := hblind e (List.mem_of_getElem? hduring.2)
    exact unmeasured_of_blind he s (List.mem_flatMap.mpr ⟨u, hmailed, hsample⟩)
  · have hopened : p.phase ≠ .created ∧ p.phase ≠ .stopped := by rcases hphase with h | h <;>
      rw [h] <;> decide
    obtain ⟨i, q, launches, monitor, t, hduring, hq, hpos, hcrewed⟩ :=
      crewed_of_steps hrun hblind hopened.1 hopened.2
    have hconfig : q.config = config := config_of_steps hduring.1
    exact ⟨i, q, launches, monitor, t, hduring, hq, hpos, hcrewed.active, hcrewed.shown,
      hconfig ▸ hcrewed.attempts⟩

/-- Room for more workers, and one sample is enough to want one. -/
def eager : Config := { minWorkers := 2, maxWorkers := 4, window := { minSamples := 1 } }

/-- Two jobs that take their time, with a look of the monitor after each. One of two
launches fails. -/
def twoErrands : List (Event Nat) :=
  [.start (· != 1) true 0, .read, .read, .read] ++ errand 0 0 5 ++ glance 5 ++ errand 1 5 9 ++
    glance 9

theorem size_kept_without_readings_eager :
    (∀ e ∈ twoErrands, e.Blind) ∧ ∃ p : Pool Nat, (create eager 0).steps twoErrands = some p ∧
      p.phase = .running ∧ p.window.size = 2 ∧ p.latest.beta = ⟨0.0, 0, 0, false⟩ ∧
      p.latest.trend = some .stable ∧
      (∃ i q launches monitor t, During (create eager 0) twoErrands i q
        (.start launches monitor t) ∧ p.active = q.launched launches ∧
        p.latest.active = q.launched launches) ∧
      p.active < eager.maxWorkers := by
  have hblind : ∀ e ∈ twoErrands, e.Blind := by simp [twoErrands, errand, glance, Event.Blind]
  have hrun : ∃ p : Pool Nat, (create eager 0).steps twoErrands = some p ∧ p.phase = .running ∧
      p.window.size = 2 ∧ p.active = 1 ∧ p.draft = none := ⟨_, rfl, rfl, rfl, rfl, rfl⟩
  obtain ⟨p, hrun, hphase, hsize, hactive, hfree⟩ := hrun
  obtain ⟨_, _, hbeta, _, hshown, _, hcrew, _⟩ := size_kept_without_readings hrun hblind
  obtain ⟨i, q, launches, monitor, t, hduring, _, _, hkept, hseen, _⟩ := hcrew (.inl hphase)
  refine ⟨hblind, p, hrun, hphase, hsize, hbeta, hshown,
    ⟨i, q, launches, monitor, t, hduring, hkept, hseen hfree⟩, ?_⟩
  rw [hactive]
  decide

end Pool

end Headroom
