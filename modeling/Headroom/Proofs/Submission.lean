import Headroom.Proofs.Shutdown

/-!
# Calls of submit

A submission takes an index, waits while the queue is full, and then enters the queue, is refused by
a closed pool, or has waited for too long. Others go on in the meantime. `Submission` is the
relation between the state in which such a call begins, all that happens until it ends, the state
then, and its ticket or its fault.

* **`steps_skip`**: how many indices were given out makes no difference to anything else that
  happens.
* **`Submission.without`**: so a call that ends with a fault leaves nothing behind but the index
  that it took.
* **`submission_of_simulation`**: what `Simulation.submit` computes is such a call.
* **`submit_without`**: what it leaves behind when it fails.
-/

namespace Headroom.Pool

variable {α : Type}

/-! ## Indices -/

/-- The pool with `n` more indices given out. Nothing but the next index depends on their number,
which is what the lemmas about `skip` say of one function after the other. -/
def skip (n : Nat) (p : Pool α) : Pool α := { p with submitted := p.submitted + n }

theorem launch_skip (launches : Nat → Bool) (n : Nat) (p : Pool α) :
    (p.skip n).launch launches = (p.launch launches).skip n := by
  simp only [launch, apply_ite (skip n)]
  rfl

theorem scaleUp_skip (launches : Nat → Bool) (n : Nat) (p : Pool α) :
    (p.skip n).scaleUp launches = (p.scaleUp launches).skip n := by
  simp only [scaleUp, launch_skip, apply_ite (skip n)]
  rfl

theorem rescale_skip (launches : Nat → Bool) (e : Estimate Float) (n : Nat) (p : Pool α) :
    (p.skip n).rescale launches e = (p.rescale launches e).skip n := by
  have hup := scaleUp_skip launches n (p.noted e)
  simp only [rescale, apply_ite (skip n)]
  exact if_congr Iff.rfl hup rfl

theorem look_skip (launches : Nat → Bool) (l : Look) (n : Nat) (p : Pool α) :
    (p.skip n).look launches l = (p.look launches l).skip n := by
  have hresize := rescale_skip launches l.estimate n (p.watched l.now)
  have hlook :
      (if p.phase = .running then ((p.watched l.now).skip n).rescale launches l.estimate
        else ({ p.watched l.now with trend := .stable } : Pool α).skip n) =
      (if p.phase = .running then (p.watched l.now).rescale launches l.estimate
        else { p.watched l.now with trend := .stable }).skip n := by
    rw [apply_ite (skip n), hresize]
  exact congrArg (fun r : Pool α => r.reap.sketch l.estimate (p.throughput l.now) l.latency l.now)
    hlook

theorem read_skip (d : Draft) (n : Nat) (p : Pool α) : (p.skip n).read d = (p.read d).skip n := by
  cases htally : d.tally <;> simp only [read, skip, htally]

theorem start_skip (launches : Nat → Bool) (monitor : Bool) (now : Int) (n : Nat) (p : Pool α) :
    ((p.skip n).start launches monitor now).1 = (p.start launches monitor now).1.skip n := by
  by_cases hphase : p.phase = .created
  · rw [start_created launches monitor now hphase,
      start_created launches monitor now (p := p.skip n) hphase]
    simp only [apply_ite Prod.fst, apply_ite (skip n)]
    rfl
  · rw [start_late launches monitor now hphase,
      start_late launches monitor now (p := p.skip n) hphase]

theorem close_skip (wait : Bool) (n : Nat) (p : Pool α) :
    (p.skip n).close wait = (p.close wait).skip n := by
  cases wait with
  | true => rfl
  | false => simp only [close, settleAll_eq]; rfl

theorem mark_skip (n : Nat) (p : Pool α) : (p.skip n).mark = p.mark.skip n := by
  cases hphase : p.phase <;> simp only [mark, skip, hphase]

theorem conclude_skip (now : Int) (n : Nat) (p : Pool α) :
    (p.skip n).conclude now = (p.conclude now).skip n := by
  simp only [conclude, apply_ite (skip n)]
  rfl

theorem claim_skip (id n : Nat) (p : Pool α) : (p.skip n).claim id = (p.claim id).skip n := by
  have hsame : (p.skip n).queue = p.queue := rfl
  simp only [claim, hsame, apply_ite (skip n)]
  cases p.queue <;> rfl

theorem shut_skip (id n : Nat) (job : Job α) (what : Bytes) (p : Pool α) :
    (p.skip n).shut id job what = (p.shut id job what).skip n := by
  simp only [shut, settleAll_eq, apply_ite (skip n)]
  rfl

theorem leave_skip (id n : Nat) (now : Int) (p : Pool α) :
    (p.skip n).leave id now = (p.leave id now).skip n := by
  simp only [leave, apply_ite (skip n)]
  rfl

/-- What a worker does next is not concerned with the indices given out. -/
theorem work_skip (id : Nat) (action : Action) (n : Nat) (p : Pool α) :
    (p.skip n).work id action = (p.work id action).map (skip n) := by
  have hat : (p.skip n).stage? id = p.stage? id := rfl
  unfold work
  rw [hat]
  split
  · rw [apply_ite (Option.map (skip n)), claim_skip]; rfl
  · next reading _ _ => cases reading <;> rfl
  · rfl
  · next reading _ _ => cases reading <;> rfl
  · rfl
  · rfl
  · rw [shut_skip]; rfl
  · rfl
  · rfl
  · rw [leave_skip]; rfl
  · rfl

/-- What happens is not concerned with them either: the same events are possible, and lead to the
same pool up to `skip`. -/
theorem happen_skip (e : Event α) (n : Nat) (p : Pool α) :
    (p.skip n).happen e = (p.happen e).map (skip n) := by
  -- the number of indices given out is read by `number` only
  cases e with
  | number => simp [happen, skip, Nat.add_right_comm]
  | enqueue index body =>
    simp only [happen, apply_ite (Option.map (skip n))]
    rfl
  | start launches monitor now => simp [happen, start_skip]
  | survey now =>
    simp only [happen, apply_ite (Option.map (skip n))]
    rfl
  | look launches =>
    simp only [happen, look_skip, Option.map_map]
    rfl
  | read =>
    simp only [happen, read_skip, Option.map_map]
    rfl
  | close wait => simp [happen, close_skip]
  | mark => simp [happen, mark_skip]
  | collect =>
    simp only [happen, apply_ite (Option.map (skip n))]
    rfl
  | conclude now =>
    simp only [happen, conclude_skip, apply_ite (Option.map (skip n))]
    rfl
  | work id action => exact work_skip id action n p

theorem step_skip (e : Event α) (n : Nat) (p : Pool α) :
    (p.skip n).step e = (p.step e).map (skip n) := by
  simp only [step, happen_skip, apply_ite (Option.map (skip n))]
  rfl

/-- How many indices were given out before changes nothing else over a whole run: `steps` commutes
with `skip`. -/
theorem steps_skip (es : List (Event α)) (n : Nat) (p : Pool α) :
    (p.skip n).steps es = (p.steps es).map (skip n) := by
  induction es generalizing p with
  | nil => rfl
  | cons e es ih =>
    rw [steps, steps, step_skip]
    cases p.step e with
    | none => rfl
    | some q => exact ih q

/-! ## The call -/

/-- How an attempt to enter the queue ends, in the state `m` in which that is decided: it finds
room, the pool closed, or its time over. Only the first has an event. -/
inductive Entry (index : Nat) (body : Result α) (limitMs : Option Int) (m : Pool α) :
    List (Event α) → Pool α → Except Fault Nat → Prop
  | accepted (hopen : m.accepting = true) (hroom : m.full = false) :
      Entry index body limitMs m [.enqueue index body] (m.enqueue index body) (.ok m.accepted)
  | refused (hclosed : m.accepting = false) : Entry index body limitMs m [] m (.error m.refusal)
  | timedOut {ms : Int} (hlimit : limitMs = some ms) (hopen : m.accepting = true)
      (hfull : m.full = true) :
      Entry index body limitMs m [] m (.error (.queueFull m.config.queueCapacity ms))

/-- A call of submit takes its index, and anything may go on until its `Entry` is decided: other
callers, workers and the monitor are not held up by it. -/
inductive Submission (body : Result α) (limitMs : Option Int) (p : Pool α) :
    List (Event α) → Pool α → Except Fault Nat → Prop
  | call {es fs : List (Event α)} {m q : Pool α} {outcome : Except Fault Nat}
      (hwait : (p.skip 1).steps es = some m)
      (hentry : Entry p.submitted body limitMs m fs q outcome) :
      Submission body limitMs p (.number :: (es ++ fs)) q outcome

section

variable {index : Nat} {body : Result α} {limitMs : Option Int} {p m q : Pool α}
  {es : List (Event α)} {outcome : Except Fault Nat} {f : Fault}

theorem step_enqueue (index : Nat) (body : Result α) (hopen : m.accepting = true)
    (hroom : m.full = false) :
    m.step (.enqueue index body) = some (m.enqueue index body) := by
  refine step_eq_some_iff.mpr ⟨nofun, ?_⟩
  rw [happen, hopen, hroom]
  rfl

theorem Entry.steps (h : Entry index body limitMs m es q outcome) : m.steps es = some q := by
  cases h with
  | accepted hopen hroom => rw [steps_singleton, step_enqueue index body hopen hroom]
  | refused | timedOut => rfl

/-- An attempt (`Entry`) that fails leaves the state as it is, and says which of the two reasons it
has. -/
theorem Entry.of_error (h : Entry index body limitMs m es q (.error f)) :
    es = [] ∧ q = m ∧ (f.kind = .poolFailure ∨ f.kind = .submissionTimeout) := by
  cases h with
  | refused => exact ⟨rfl, rfl, .inl (kind_refusal m)⟩
  | timedOut => exact ⟨rfl, rfl, .inr rfl⟩

/-- An attempt that finds the pool closed meets its refusal, whether or not there is room or time
left. -/
theorem Entry.of_closed (h : Entry index body limitMs m es q outcome)
    (hclosed : m.accepting = false) :
    outcome = .error m.refusal := by
  cases h with
  | accepted hopen | timedOut _ hopen => cases hclosed.symm.trans hopen
  | refused => rfl

/-- **A submission that fails leaves no trace** but the index that it took: what the others do leads
to the same state without it, up to `skip 1`. -/
theorem Submission.without (h : Submission body limitMs p es q (.error f)) :
    ∃ others m, es = .number :: others ∧ p.steps others = some m ∧ q = m.skip 1 := by
  obtain ⟨hwait, hentry⟩ := h
  obtain ⟨rfl, rfl, _⟩ := hentry.of_error
  rw [steps_skip] at hwait
  obtain ⟨m, hm, rfl⟩ := Option.map_eq_some_iff.mp hwait
  exact ⟨_, m, by rw [List.append_nil], hm, rfl⟩

/-- A `Submission` fails because the pool is closed, or because it has waited for as long as it may.
No third reason is ever given. -/
theorem Submission.kind_of_error (h : Submission body limitMs p es q (.error f)) :
    f.kind = .poolFailure ∨ f.kind = .submissionTimeout := by
  obtain ⟨_, hentry⟩ := h
  exact hentry.of_error.2.2

/-- A pool that is left to itself (`Alone`) goes the same way without the indices given
out before. -/
theorem Alone.unskip {n : Nat} (h : Alone (p.skip n) es q) : ∃ m, Alone p es m ∧ q = m.skip n := by
  have hrun := h.run
  rw [steps_skip] at hrun
  obtain ⟨m, hm, rfl⟩ := Option.map_eq_some_iff.mp hrun
  exact ⟨m, ⟨hm, h.inner⟩, rfl⟩

theorem Alone.submissions (h : Alone p es q) : submissions es = [] := by
  rw [Pool.submissions, List.filterMap_eq_nil_iff]
  intro e he
  have hinner := h.inner e he
  cases e <;> trivial

end

end Headroom.Pool

/-! ## Simulated calls -/

namespace Headroom.Simulation

open Pool

variable {α : Type}

/-- Coming to rest is a run of the pool by itself: workers and the monitor, and no caller. -/
theorem alone_rest (s : Simulation α) : ∃ es, Alone s.pool es s.rest.pool := alone_actFor _ s

theorem alone_advanceToLook (moment : Int) (s : Simulation α) :
    ∃ es, Alone s.pool es (s.advanceToLook moment).pool := by
  let t : Simulation α :=
    { s with clock := max s.clock moment, nextLook := moment + s.pool.config.interval }
  obtain ⟨es, hsurvey⟩ := alone_fire (e := .survey t.clock) trivial t
  obtain ⟨fs, hlook⟩ := alone_fire (e := .look t.host.launches) trivial (t.fire (.survey t.clock))
  obtain ⟨gs, hread⟩ := alone_announce ((t.fire (.survey t.clock)).fire (.look t.host.launches))
  obtain ⟨hs, hrest⟩ :=
    alone_rest ((t.fire (.survey t.clock)).fire (.look t.host.launches)).announce
  exact ⟨_, ((hsurvey.trans hlook).trans hread).trans hrest⟩

/-- Looking for room again and again lets the pool go on by itself between the looks. -/
theorem alone_looksForRoom (deadline : Option Int) (fuel : Nat) (s : Simulation α) :
    ∃ es, Alone s.pool es (s.looksForRoom deadline fuel).pool := by
  induction fuel generalizing s with
  | zero => exact ⟨[], .refl _⟩
  | succ fuel ih =>
    rw [looksForRoom]
    split
    · exact ⟨[], .refl _⟩
    · split
      · split
        · next t _ _ =>
          obtain ⟨es, hlook⟩ := alone_advanceToLook t s
          obtain ⟨fs, hlooks⟩ := ih (s.advanceToLook t)
          exact ⟨_, hlook.trans hlooks⟩
        · exact ⟨[], .refl _⟩
      · exact ⟨[], .refl _⟩

theorem alone_awaitRoom (limitMs : Option Int) (s : Simulation α) :
    ∃ es, Alone s.pool es (s.awaitRoom limitMs).pool := by
  obtain ⟨es, hrest⟩ := alone_rest s
  cases limitMs with
  | none =>
    obtain ⟨fs, hlooks⟩ := alone_looksForRoom none s.rest.pool.config.maxWorkers.toNat s.rest
    exact ⟨_, hrest.trans hlooks⟩
  | some ms =>
    obtain ⟨fs, hlooks⟩ := alone_looksForRoom (some (s.rest.clock + ms * 1000000))
      (s.rest.looksWithin (ms * 1000000)) s.rest
    refine ⟨es ++ fs, hrest.trans ?_⟩
    simp only [awaitRoom]
    split <;> exact hlooks

/-- What `enqueue` computes is an attempt to enter the queue after a while, if it returns: a caller
without a limit waits until there is room, and `hreturns` says that there will be. -/
theorem entry_of_enqueue (index : Nat) (body : Result α) (plan : Plan) (limitMs : Option Int)
    (s : Simulation α) (hreturns : limitMs = none → ∀ n ms, (s.enqueue index body plan none).2 ≠
    .error (.queueFull n ms)) :
    ∃ es m fs, Alone s.pool es m ∧
      Entry index body limitMs m fs (s.enqueue index body plan limitMs).1.pool
        (s.enqueue index body plan limitMs).2 := by
  -- the attempt first waits for room, if there is none
  obtain ⟨es, hwait⟩ : ∃ es, Alone s.pool es (if s.admits then s
    else s.awaitRoom limitMs).pool := by
    split
    · exact ⟨[], .refl _⟩
    · exact alone_awaitRoom limitMs s
  generalize hdoor : (if s.admits then s else s.awaitRoom limitMs) = d at hwait
  refine ⟨es, d.pool, ?_⟩
  cases hopen : d.pool.accepting with
  | false =>
    refine ⟨[], hwait, ?_⟩
    simp only [enqueue, hdoor, hopen]
    exact .refused hopen
  | true =>
    cases hfull : d.pool.full with
    | false =>
      have hpool := pool_fire (step_enqueue index body hopen hfull)
      refine ⟨[.enqueue index body], hwait, ?_⟩
      simp only [enqueue, hdoor, hopen, hfull]
      exact hpool ▸ .accepted hopen hfull
    | true =>
      refine ⟨[], hwait, ?_⟩
      cases limitMs with
      | none =>
        -- an attempt without a limit does not time out
        refine absurd ?_ (hreturns rfl d.pool.config.queueCapacity 0)
        simp [enqueue, hdoor, hopen, hfull]
      | some ms =>
        simp only [enqueue, hdoor, hopen, hfull]
        exact .timedOut rfl hopen hfull

/-- **What `submit` computes is a call of submit**: it takes its index, the pool goes on by itself
until the entry is decided, and then comes to rest. -/
theorem submission_of_simulation (body : Result α) (plan : Plan) (limitMs : Option Int)
    (s : Simulation α)
    (hreturns : limitMs = none → ∀ n ms, (s.submit body plan none).2 ≠ .error (.queueFull n ms)) :
    ∃ es m fs q gs, Alone (s.pool.skip 1) es m ∧
      Entry s.pool.submitted body limitMs m fs q (s.submit body plan limitMs).2 ∧
      Alone q gs (s.submit body plan limitMs).1.pool := by
  have hnumber : (s.fire .number).pool = s.pool.skip 1 := pool_fire rfl
  obtain ⟨es, m, fs, hwait, hentry⟩ :=
    entry_of_enqueue s.pool.submitted body plan limitMs (s.fire .number) hreturns
  obtain ⟨gs, hrest⟩ := alone_rest ((s.fire .number).enqueue s.pool.submitted body plan limitMs).1
  exact ⟨es, m, fs, _, gs, hnumber ▸ hwait, hentry, hrest⟩

/-- A computed submission that fails leaves the pool where it would be without it, with one index
more given out (`skip`). -/
theorem submit_without {body : Result α} {plan : Plan} {limitMs : Option Int} {s : Simulation α}
    {f : Fault} (hfails : (s.submit body plan limitMs).2 = .error f)
    (hreturns : limitMs = none → f.kind ≠ .submissionTimeout) :
    ∃ es m, Alone s.pool es m ∧ (s.submit body plan limitMs).1.pool = m.skip 1 := by
  obtain ⟨es, m, fs, q, gs, hwait, hentry, hrest⟩ :=
    submission_of_simulation body plan limitMs s fun hnone n ms hfull => by
      subst hnone
      cases hfails.symm.trans hfull
      exact hreturns rfl rfl
  rw [hfails] at hentry
  obtain ⟨_, rfl, _⟩ := hentry.of_error
  obtain ⟨q, halone, hq⟩ := (hwait.trans hrest).unskip
  exact ⟨_, q, halone, hq⟩

end Headroom.Simulation
