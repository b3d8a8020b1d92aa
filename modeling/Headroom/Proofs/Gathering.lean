import Headroom.Proofs.Batches
import Headroom.Proofs.Settlement
import Headroom.Proofs.Submission

/-!
# Batches in the pool

A batch hands in its items one after the other and then waits for each result in turn. Meanwhile the
pool does whatever it does: items finish in any order, others submit tasks, and a shutdown or a
failing worker may cut the batch short. `Launch` is the first part of such a call, `Reads` and
`Collects` are the loops of the second one.

* **`Launch.tasks`**: the ticket of an item is that of its own task.
* **`reads_iff`**, **`gathers_iff`**: since a result that is there stays, a loop that waits for each
  result in turn finds what is there in the end, whenever it looks.
* **`batch_is_its_outcomes`**: so a batch is determined by the results of its items.
-/

namespace Headroom.Pool

variable {α : Type}

/-! ## Tickets in a row -/

section

variable {γ : Type} {f g : Nat → Option γ} {ts : List Nat} {xs : List γ}

/-- What `f` has for each ticket of a list, in order. With `result?` for `f` these are the results
of a batch, with the submissions of a run they are its tasks. -/
def Yields (f : Nat → Option γ) (tickets : List Nat) (xs : List γ) : Prop :=
  tickets.map f = xs.map some

theorem yields_nil : Yields f [] xs ↔ xs = [] := by
  cases xs <;> simp [Yields]

theorem yields_cons {t : Nat} :
    Yields f (t :: ts) xs ↔ ∃ x rest, xs = x :: rest ∧ f t = some x ∧ Yields f ts rest := by
  cases xs <;> simp [Yields]

theorem Yields.length (h : Yields f ts xs) : ts.length = xs.length := by
  have hlength := congrArg List.length h
  rwa [List.length_map, List.length_map] at hlength

theorem Yields.getElem? (h : Yields f ts xs) {i : Nat} {x : γ} (hx : xs[i]? = some x) :
    ∃ t, ts[i]? = some t ∧ f t = some x := by
  have hat := congrArg (·[i]?) h
  simp only [List.getElem?_map, hx, Option.map_some] at hat
  exact Option.map_eq_some_iff.mp hat

theorem Yields.apply {i t : Nat} (h : Yields f ts xs) (ht : ts[i]? = some t) : f t = xs[i]? := by
  have hat := congrArg (·[i]?) h
  simp only [List.getElem?_map, ht, Option.map_some] at hat
  cases hx : xs[i]? with
  | none => rw [hx] at hat; cases hat
  | some x => rw [hx] at hat; exact Option.some.inj hat

/-- What is had stays had when `f` becomes more defined, as `result?` does along a run. -/
theorem Yields.mono (h : Yields f ts xs) (hfg : ∀ t x, f t = some x → g t = some x) :
    Yields g ts xs := by
  induction ts generalizing xs with
  | nil => exact yields_nil.mpr (yields_nil.mp h)
  | cons t ts ih =>
    obtain ⟨x, rest, rfl, ht, hrest⟩ := yields_cons.mp h
    exact yields_cons.mpr ⟨x, rest, rfl, hfg t x ht, ih hrest⟩

theorem Yields.exists {t : Nat} (h : Yields f ts xs) (ht : t ∈ ts) : ∃ x, f t = some x := by
  have hmem : f t ∈ xs.map some := h ▸ List.mem_map_of_mem ht
  obtain ⟨x, _, hx⟩ := List.mem_map.mp hmem
  exact ⟨x, hx.symm⟩

theorem Yields.unique {ys : List γ} (h : Yields f ts xs) (h' : Yields f ts ys) : xs = ys :=
  List.map_injective_iff.mpr (Option.some_injective _) (h.symm.trans h')

theorem Yields.filterMap_eq (h : Yields f ts xs) : ts.filterMap f = xs := by
  have hfilter := congrArg (List.filterMap id) h
  simpa [List.filterMap_map] using hfilter

/-- If `f` has something for every ticket, the list yields just that. -/
theorem yields_filterMap (h : ∀ t ∈ ts, (f t).isSome) : Yields f ts (ts.filterMap f) := by
  induction ts with
  | nil => rfl
  | cons t ts ih =>
    obtain ⟨x, hx⟩ := Option.isSome_iff_exists.mp (h t List.mem_cons_self)
    rw [List.filterMap_cons_some hx]
    exact yields_cons.mpr ⟨x, _, rfl, hx, ih fun u hu => h u (List.mem_cons_of_mem t hu)⟩

/-- What `f` has for each ticket of a list, as far as it has anything: what a batch can come to
while some of its results are still missing. -/
def Allows (f : Nat → Option γ) (tickets : List Nat) (xs : List γ) : Prop :=
  List.Forall₂ (fun t x => ∀ y, f t = some y → y = x) tickets xs

theorem Yields.allows (h : Yields f ts xs) : Allows f ts xs := by
  induction ts generalizing xs with
  | nil => rw [yields_nil.mp h]; exact .nil
  | cons t ts ih =>
    obtain ⟨x, rest, rfl, ht, hrest⟩ := yields_cons.mp h
    exact .cons (fun y hy => Option.some.inj (hy.symm.trans ht)) (ih hrest)

theorem Allows.yields (h : Allows f ts xs) (hall : ∀ t ∈ ts, (f t).isSome) : Yields f ts xs := by
  induction h with
  | nil => rfl
  | @cons t x ts xs hfirst _ ih =>
    obtain ⟨y, hy⟩ := Option.isSome_iff_exists.mp (hall t List.mem_cons_self)
    rw [hfirst y hy] at hy
    exact yields_cons.mpr ⟨x, xs, rfl, hy, ih fun u hu => hall u (List.mem_cons_of_mem t hu)⟩

end

/-! ## Handing in -/

/-- The items of a batch enter the queue from a position on. Each waits for room as long as it
takes; the first that is refused ends the batch. Anything may go on between two items. -/
inductive Launch : Nat → List (Result α) → Pool α → List (Event α) → Pool α →
    Except Fault (List Nat) → Prop
  | done (first : Nat) (p : Pool α) : Launch first [] p [] p (.ok [])
  | item {first t : Nat} {body : Result α} {bodies : List (Result α)} {p m q r : Pool α}
      {es fs gs : List (Event α)} {outcome : Except Fault (List Nat)}
      (hwait : p.steps es = some m) (hentry : Entry first body none m fs q (.ok t))
      (hrest : Launch (first + 1) bodies q gs r outcome) :
      Launch first (body :: bodies) p (es ++ fs ++ gs) r (outcome.map (t :: ·))
  | refused {first : Nat} {body : Result α} {bodies : List (Result α)} {p m q : Pool α}
      {es fs : List (Event α)} {f : Fault} (hwait : p.steps es = some m)
      (hentry : Entry first body none m fs q (.error f)) :
      Launch first (body :: bodies) p (es ++ fs) q (.error f)

/-- The tasks that the items of a batch are, the first of which has position `first`. -/
def itemTasks (first : Nat) (bodies : List (Result α)) : List (Nat × Result α) :=
  bodies.mapIdx fun i body => (first + i, body)

theorem itemTasks_cons (first : Nat) (body : Result α) (bodies : List (Result α)) :
    itemTasks first (body :: bodies) = (first, body) :: itemTasks (first + 1) bodies := by
  simp only [itemTasks, List.mapIdx_cons, Nat.add_zero]
  congr 2
  funext i body
  rw [Nat.add_right_comm, Nat.add_assoc]

theorem length_itemTasks (first : Nat) (bodies : List (Result α)) :
    (itemTasks first bodies).length = bodies.length :=
  List.length_mapIdx

theorem submissions_mono {es : List (Event α)} (fs : List (Event α)) {t : Nat}
    {task : Nat × Result α} (h : (submissions es)[t]? = some task) :
    (submissions (es ++ fs))[t]? = some task := by
  rw [submissions_append, List.getElem?_append_left (List.getElem?_eq_some_iff.mp h).1, h]

theorem Launch.steps {first : Nat} {bodies : List (Result α)} {p q : Pool α} {es : List (Event α)}
    {outcome : Except Fault (List Nat)} (h : Launch first bodies p es q outcome) :
    p.steps es = some q := by
  induction h with
  | done => rfl
  | item hwait hentry _ ih => exact steps_trans (steps_trans hwait hentry.steps) ih
  | refused hwait hentry => exact steps_trans hwait hentry.steps

section

variable {config : Config} {now : Int} {es₀ : List (Event α)} {p : Pool α}

/-- **The ticket of an item is that of its own task**, whatever else is handed in before and
between: `Yields` pairs them off. -/
theorem Launch.tasks (hrun : (create config now).steps es₀ = some p) {first : Nat}
    {bodies : List (Result α)} {es : List (Event α)} {q : Pool α} {tickets : List Nat}
    (h : Launch first bodies p es q (.ok tickets)) :
    Yields (fun t => (submissions (es₀ ++ es))[t]?) tickets (itemTasks first bodies) := by
  -- the induction is on the batch; the tickets of the rest come after this one's
  generalize houtcome : (Except.ok tickets : Except Fault (List Nat)) = outcome at h
  induction h generalizing es₀ tickets with
  | done => cases houtcome; rfl
  | refused => cases houtcome
  | @item first t body bodies p m q r es fs gs outcome hwait hentry hrest ih =>
    cases outcome with
    | error f => cases houtcome
    | ok rest =>
      cases houtcome
      have hbefore := steps_trans hrun hwait
      have hafter := steps_trans hbefore hentry.steps
      have hassoc : es₀ ++ (es ++ fs ++ gs) = es₀ ++ es ++ fs ++ gs := by
        simp only [List.append_assoc]
      -- the ticket is the number of submissions before, so the task is found under it
      have htask : (submissions (es₀ ++ es ++ fs))[t]? = some (first, body) := by
        cases hentry with
        | accepted hopen hroom =>
          rw [submissions_append, (tracked_of_steps hbefore).accepted]
          simp [submissions, Event.submission?]
      rw [hassoc, itemTasks_cons]
      exact yields_cons.mpr ⟨_, _, rfl, submissions_mono gs htask, ih hafter rfl⟩

end

/-! ## Reading -/

/-- Results that are awaited one after the other, during a run that may go on afterwards. Each of
them is read in some state in which it is there. -/
inductive Reads : Pool α → List Nat → List (Event α) → Pool α → List (Result α) → Prop
  | done {p q : Pool α} {es : List (Event α)} (hmore : p.steps es = some q) : Reads p [] es q []
  | next {p m q : Pool α} {t : Nat} {ts : List Nat} {es fs : List (Event α)} {r : Result α}
      {rs : List (Result α)} (hwait : p.steps es = some m) (hsettled : m.result? t = some r)
      (hrest : Reads m ts fs q rs) :
      Reads p (t :: ts) (es ++ fs) q (r :: rs)

/-- The same, with the values and the failures kept apart. A fault that is not taken down ends it,
and what comes after is not awaited. -/
inductive Collects (policy : FailurePolicy) :
    Pool α → List Nat → List (Event α) → Pool α → Result (List α × List (Nat × Fault)) → Prop
  | done {p q : Pool α} {es : List (Event α)} (hmore : p.steps es = some q) :
      Collects policy p [] es q (.ok ([], []))
  | value {p m q : Pool α} {t : Nat} {ts : List Nat} {es fs : List (Event α)} {v : α}
      {r : Result (List α × List (Nat × Fault))} (hwait : p.steps es = some m)
      (hsettled : m.result? t = some (.ok v)) (hrest : Collects policy m ts fs q r) :
      Collects policy p (t :: ts) (es ++ fs) q (r.map fun (vs, fs) => (v :: vs, fs))
  | failure {p m q : Pool α} {t : Nat} {ts : List Nat} {es fs : List (Event α)} {f : Fault}
      {failure : Nat × Fault} {r : Result (List α × List (Nat × Fault))}
      (hwait : p.steps es = some m) (hsettled : m.result? t = some (.error f))
      (htaken : collected policy f = some failure) (hrest : Collects policy m ts fs q r) :
      Collects policy p (t :: ts) (es ++ fs) q (r.map fun (vs, fs) => (vs, failure :: fs))
  | fault {p m q : Pool α} {t : Nat} {ts : List Nat} {es fs : List (Event α)} {f : Fault}
      (hwait : p.steps es = some m) (hsettled : m.result? t = some (.error f))
      (hends : collected policy f = none) (hmore : m.steps fs = some q) :
      Collects policy p (t :: ts) (es ++ fs) q (.error f)

/-- What the results of a batch are gathered to: the values and failures that `Collects` keeps
apart, as `report` puts them together. -/
def Gathers (policy : FailurePolicy) (p : Pool α) (tickets : List Nat) (es : List (Event α))
    (q : Pool α) (r : Result (List α)) : Prop :=
  ∃ counts, Collects policy p tickets es q counts ∧ report tickets.length counts = r

theorem Reads.steps {p q : Pool α} {ts : List Nat} {es : List (Event α)} {rs : List (Result α)}
    (h : Reads p ts es q rs) : p.steps es = some q := by
  induction h with
  | done hmore => exact hmore
  | next hwait _ _ ih => exact steps_trans hwait ih

theorem Collects.steps {policy : FailurePolicy} {p q : Pool α} {ts : List Nat}
    {es : List (Event α)} {r : Result (List α × List (Nat × Fault))}
    (h : Collects policy p ts es q r) : p.steps es = some q := by
  induction h with
  | done hmore => exact hmore
  | value hwait _ _ ih | failure hwait _ _ _ ih => exact steps_trans hwait ih
  | fault hwait _ _ hmore => exact steps_trans hwait hmore

section

variable {config : Config} {now : Int} {es₀ : List (Event α)} {p : Pool α}

/-- What was read (`Reads`) is what the tickets have in the end, since a result never changes. -/
theorem Reads.yields (hrun : (create config now).steps es₀ = some p) {ts : List Nat}
    {es : List (Event α)} {q : Pool α} {rs : List (Result α)} (h : Reads p ts es q rs) :
    Yields q.result? ts rs := by
  induction h generalizing es₀ with
  | done => rfl
  | next hwait hsettled hrest ih =>
    have hthen := steps_trans hrun hwait
    exact yields_cons.mpr ⟨_, _, rfl, result?_of_steps hthen hrest.steps hsettled, ih hthen⟩

/-- Who waits until the end finds all results, without having to read them when they come. -/
theorem reads_of_settled {p q : Pool α} {ts : List Nat} {es : List (Event α)} {rs : List (Result α)}
    (hmore : p.steps es = some q) (h : Yields q.result? ts rs) : Reads p ts es q rs := by
  induction ts generalizing p es rs with
  | nil => rw [yields_nil.mp h]; exact .done hmore
  | cons t ts ih =>
    obtain ⟨r, rs, rfl, ht, hts⟩ := yields_cons.mp h
    rw [← List.append_nil es]
    exact .next hmore ht (ih (steps_nil q) hts)

/-- When all results are there, there is just one list to read. -/
theorem reads_iff (hrun : (create config now).steps es₀ = some p) {ts : List Nat}
    {es : List (Event α)} {q : Pool α} {results : List (Result α)} (hmore : p.steps es = some q)
    (hsettled : Yields q.result? ts results) {rs : List (Result α)} :
    Reads p ts es q rs ↔ rs = results := by
  constructor
  · intro h
    exact (h.yields hrun).unique hsettled
  · rintro rfl
    exact reads_of_settled hmore hsettled

/-- A loop that reads one result after the other, up to a fault that ends it, has what the results
come to (`tally`). What it did not get to read does not matter. -/
theorem Collects.eq_tally (hrun : (create config now).steps es₀ = some p) {policy : FailurePolicy}
    {ts : List Nat} {es : List (Event α)} {q : Pool α} {r : Result (List α × List (Nat × Fault))}
    (h : Collects policy p ts es q r) {results : List (Result α)}
    (hallows : Allows q.result? ts results) : r = tally policy results := by
  induction h generalizing es₀ results with
  | done => cases hallows; rfl
  | value hwait ht hrest ih =>
    have hthen := steps_trans hrun hwait
    cases hallows with
    | cons hfirst hlater =>
      cases hfirst _ (result?_of_steps hthen hrest.steps ht)
      rw [tally, ih hthen hlater]
  | failure hwait ht htaken hrest ih =>
    have hthen := steps_trans hrun hwait
    cases hallows with
    | cons hfirst hlater =>
      cases hfirst _ (result?_of_steps hthen hrest.steps ht)
      rw [tally, htaken, ih hthen hlater]
  | fault hwait ht hends hmore =>
    cases hallows with
    | cons hfirst _ =>
      cases hfirst _ (result?_of_steps (steps_trans hrun hwait) hmore ht)
      rw [tally, hends]

/-- When all results are there, a loop can collect what `tally` makes of them. -/
theorem collects_of_settled (policy : FailurePolicy) {p q : Pool α} {ts : List Nat}
    {es : List (Event α)} {results : List (Result α)} (hmore : p.steps es = some q)
    (h : Yields q.result? ts results) :
    Collects policy p ts es q (tally policy results) := by
  induction ts generalizing p es results with
  | nil => rw [yields_nil.mp h]; exact .done hmore
  | cons t ts ih =>
    obtain ⟨r, rs, rfl, ht, hts⟩ := yields_cons.mp h
    have hrest := ih (steps_nil q) hts
    rw [← List.append_nil es]
    cases r with
    | ok v => exact .value hmore ht hrest
    | error f =>
      rw [tally]
      cases hf : collected policy f with
      | none => exact .fault hmore ht hf (steps_nil q)
      | some failure => exact .failure hmore ht hf hrest

/-- What is gathered is a function of the results, `gather`, whatever else happens meanwhile. -/
theorem gathers_iff (hrun : (create config now).steps es₀ = some p) {policy : FailurePolicy}
    {ts : List Nat} {es : List (Event α)} {q : Pool α} {results : List (Result α)}
    (hmore : p.steps es = some q) (hsettled : Yields q.result? ts results) {r : Result (List α)} :
    Gathers policy p ts es q r ↔ gather policy results = r := by
  rw [gather_eq_report, ← hsettled.length]
  constructor
  · rintro ⟨counts, hcollects, rfl⟩
    rw [hcollects.eq_tally hrun hsettled.allows]
  · rintro rfl
    exact ⟨_, collects_of_settled policy hmore hsettled, rfl⟩

/-! ## The results of the items -/

theorem Job.outcome_eq (t index : Nat) (body : Result α) :
    Job.outcome ⟨t, index, body⟩ = body.mapError (.task index) := by
  cases body <;> rfl

/-- What an item can come to: what its own body leaves behind, with the item's position in a
failure, or that the pool cut it short. -/
inductive ItemResult (i : Nat) (body : Result α) : Result α → Prop
  | own : ItemResult i body (body.mapError (.task i))
  | cancelled : ItemResult i body (.error .cancelled)
  | lost (what : Bytes) : ItemResult i body (.error (.harness what))

/-- Every result of a batch belongs to its item (`ItemResult`), under the item's position. -/
theorem item_result (hrun : (create config now).steps es₀ = some p) {first : Nat}
    {bodies : List (Result α)} {ts : List Nat} (htasks : Yields (fun t => (submissions es₀)[t]?) ts
    (itemTasks first bodies)) {results : List (Result α)} (hsettled : Yields p.result? ts results)
    {i : Nat} {r : Result α} (hr : results[i]? = some r) :
    ∃ body, bodies[i]? = some body ∧ ItemResult (first + i) body r := by
  obtain ⟨t, ht, hresult⟩ := hsettled.getElem? hr
  have hi : i < bodies.length := by
    rw [← length_itemTasks first, ← htasks.length]
    exact (List.getElem?_eq_some_iff.mp ht).1
  have htask : (submissions es₀)[t]? = some (first + i, bodies[i]) := by
    rw [htasks.apply ht, itemTasks, List.getElem?_mapIdx, List.getElem?_eq_getElem hi]
    rfl
  refine ⟨bodies[i], List.getElem?_eq_getElem hi, ?_⟩
  rcases result_cases hrun hresult htask with ⟨_, rfl⟩ | ⟨_, rfl⟩ | ⟨what, rfl, _⟩
  · rw [Job.outcome_eq]
    exact .own
  · exact .cancelled
  · exact .lost what

/-- Failures of the items carry their own positions, so `tally` finds each where it occurred. -/
theorem indexed_of_items {bodies results : List (Result α)}
    (h : ∀ (i : Nat) (r : Result α), results[i]? = some r → ∃ body, bodies[i]? = some body ∧
      ItemResult i body r) :
    Indexed results := by
  intro i k cause hat
  obtain ⟨body, _, hr⟩ := h i _ hat
  generalize hfault : (Except.error (.task k cause) : Result α) = r at hr
  cases hr with
  | own =>
    cases body with
    | ok v => cases hfault
    | error f => cases hfault; rfl
  | cancelled | lost => cases hfault

/-- The results of a batch that was handed in (`Launch`) and has come to its end. -/
theorem batch_results (hrun : (create config now).steps es₀ = some p) {bodies : List (Result α)}
    {es : List (Event α)} {m : Pool α} {tickets : List Nat}
    (hlaunch : Launch 0 bodies p es m (.ok tickets)) {fs : List (Event α)} {z : Pool α}
    (hmore : m.steps fs = some z) {results : List (Result α)}
    (hsettled : Yields z.result? tickets results) :
    results.length = bodies.length ∧
      ∀ (i : Nat) (r : Result α), results[i]? = some r → ∃ body, bodies[i]? = some body ∧
        ItemResult i body r := by
  have hend := steps_trans (steps_trans hrun hlaunch.steps) hmore
  refine ⟨?_, fun i r hr => ?_⟩
  · rw [← hsettled.length, (hlaunch.tasks hrun).length, length_itemTasks]
  · have htasks := (hlaunch.tasks hrun).mono fun t task => submissions_mono fs
    have hitem := item_result hend htasks hsettled hr
    rwa [Nat.zero_add] at hitem

end

end Headroom.Pool

/-! ## Simulated batches -/

namespace Headroom.Simulation

open Pool

variable {α : Type}

section

variable {plan : Plan} {first t : Nat} {body : Result α} {s s' : Simulation α} {f : Fault}

theorem enqueueAll_of_error (h : s.enqueue first body plan none = (s', .error f))
    (rest : List (Result α)) :
    s.enqueueAll plan first (body :: rest) = (s', .error f) := by
  rw [enqueueAll, h]

theorem enqueueAll_of_ok (h : s.enqueue first body plan none = (s', .ok t))
    (rest : List (Result α)) :
    s.enqueueAll plan first (body :: rest) =
      ((s'.enqueueAll plan (first + 1) rest).1, (s'.enqueueAll plan (first + 1) rest).2.map
        (t :: ·)) := by
  rw [enqueueAll, h]

end

/-- What `enqueueAll` computes is the first part of a batch, if it returns: an item waits until
there is room. -/
theorem launch_of_enqueueAll (plan : Plan) (first : Nat) (bodies : List (Result α))
    (s : Simulation α)
    (hreturns : ∀ n ms, (s.enqueueAll plan first bodies).2 ≠ .error (.queueFull n ms)) :
    ∃ es, Launch first bodies s.pool es (s.enqueueAll plan first bodies).1.pool
      (s.enqueueAll plan first bodies).2 := by
  induction bodies generalizing first s with
  | nil => exact ⟨[], .done first s.pool⟩
  | cons body rest ih =>
    rcases henqueue : s.enqueue first body plan none with ⟨s', outcome⟩
    have hentry := entry_of_enqueue first body plan none s
    rw [henqueue] at hentry
    cases outcome with
    | error f =>
      rw [enqueueAll_of_error henqueue] at hreturns ⊢
      obtain ⟨es, m, fs, hwait, hentry⟩ := hentry fun _ n ms hfull =>
        hreturns n ms (by cases hfull; rfl)
      exact ⟨_, .refused hwait.run hentry⟩
    | ok t =>
      rw [enqueueAll_of_ok henqueue] at hreturns ⊢
      obtain ⟨es, m, fs, hwait, hentry⟩ := hentry fun _ _ _ => nofun
      obtain ⟨gs, hrest⟩ := ih (first + 1) s' fun n ms hfull => hreturns n ms (by rw [hfull]; rfl)
      exact ⟨_, .item hwait.run hentry hrest⟩

/-- What `outcomes` computes are the results of a batch, as far as they are there when the pool has
come to rest. -/
theorem settled_of_outcomes {config : Config} {now : Int} {es₀ : List (Event α)} {plan : Plan}
    {bodies results : List (Result α)} {s : Simulation α}
    (hrun : (Pool.create config now).steps es₀ = some s.pool)
    (h : (s.outcomes plan bodies).2 = .ok results) (hlength : results.length = bodies.length) :
    ∃ es m tickets fs, Launch 0 bodies s.pool es m (.ok tickets) ∧
      m.steps fs = some (s.outcomes plan bodies).1.pool ∧
      Yields (s.outcomes plan bodies).1.pool.result? tickets results := by
  have hlaunch := launch_of_enqueueAll plan 0 bodies s
  rcases henqueue : s.enqueueAll plan 0 bodies with ⟨s', outcome⟩
  have hpool : (s.outcomes plan bodies).1 = s'.rest := by rw [outcomes, henqueue]
  have hresults : (s.outcomes plan bodies).2 = outcome.map fun ts =>
      ts.filterMap s'.rest.pool.result? := by
    rw [outcomes, henqueue]
  rw [henqueue] at hlaunch
  cases outcome with
  | error f => cases hresults.symm.trans h
  | ok tickets =>
    cases hresults.symm.trans h
    obtain ⟨es, hlaunch⟩ := hlaunch fun n ms => nofun
    -- nothing but workers move between the last submission and the reading of the results
    obtain ⟨fs, hrest⟩ := alone_rest s'
    rw [← length_itemTasks 0 bodies, ← (hlaunch.tasks hrun).length, List.filterMap_length_eq_length]
      at hlength
    rw [hpool]
    exact ⟨es, s'.pool, tickets, fs, hlaunch, hrest.run, yields_filterMap hlength⟩

/-- `map` gathers what `outcomes` computes, or ends with the fault that it ends with. -/
theorem map_eq (plan : Plan) (bodies : List (Result α)) (s : Simulation α) :
    (s.map plan bodies).2 =
      (s.outcomes plan bodies).2.bind
        (gather (s.outcomes plan bodies).1.pool.config.failurePolicy) := rfl

end Headroom.Simulation

namespace Headroom.Pool

variable {α : Type}

/-- **A batch is what the results of its items make of it.** However a batch that was handed in
(`Launch`) comes to its end, be it cut short by a shutdown or a failing worker: each of its items
has its own value, its own failure under its own position, or was cancelled or lost with the pool
(`ItemResult`). Whoever awaits the results one after the other (`Reads`) gets exactly these, in the
order of the items; and who gathers them (`Gathers`) gets one answer, the one that they come to
under the policy. -/
theorem batch_is_its_outcomes {config : Config} {now : Int} {es₀ es fs : List (Event α)}
    {p m z : Pool α} {bodies results : List (Result α)} {tickets : List Nat}
    (hrun : (create config now).steps es₀ = some p)
    (hlaunch : Launch 0 bodies p es m (.ok tickets)) (hmore : m.steps fs = some z)
    (hsettled : Yields z.result? tickets results) :
    results.length = bodies.length ∧
      (∀ (i : Nat) (r : Result α), results[i]? = some r → ∃ body, bodies[i]? = some body ∧
        ItemResult i body r) ∧
      (∀ rs, Reads m tickets fs z rs ↔ rs = results) ∧
      (∀ policy, (∃! r, Gathers policy m tickets fs z r) ∧
        ∀ r, Gathers policy m tickets fs z r ↔ Comes policy results r) ∧
      (∀ (s : Simulation α) plan rs, s.pool = p → (s.outcomes plan bodies).2 = .ok rs →
        rs.length = bodies.length →
        Comes config.failurePolicy rs (s.map plan bodies).2 ∧
          ∃ es' m' tickets' fs', Launch 0 bodies p es' m' (.ok tickets') ∧
            m'.steps fs' = some (s.outcomes plan bodies).1.pool ∧
            Yields (s.outcomes plan bodies).1.pool.result? tickets' rs) := by
  have hthen := steps_trans hrun hlaunch.steps
  obtain ⟨hlength, hitems⟩ := batch_results hrun hlaunch hmore hsettled
  have hgathers (policy : FailurePolicy) (r : Result (List α)) :
      Gathers policy m tickets fs z r ↔ gather policy results = r :=
        gathers_iff hthen hmore hsettled
  refine ⟨hlength, hitems, fun rs => reads_iff hthen hmore hsettled, fun policy =>
    ⟨?_, fun r => ?_⟩, fun s plan rs hpool houtcomes hall => ?_⟩
  · exact ⟨gather policy results, (hgathers policy _).mpr rfl, fun r hr =>
      ((hgathers policy r).mp hr).symm⟩
  · rw [hgathers, gather_iff (indexed_of_items hitems)]
  · -- what the simulation computes is one such run, with tickets of its own
    subst hpool
    obtain ⟨es', m', tickets', fs', hlaunch', hmore', hsettled'⟩ :=
      Simulation.settled_of_outcomes hrun houtcomes hall
    obtain ⟨_, hitems'⟩ := batch_results hrun hlaunch' hmore' hsettled'
    have hconfig := config_of_steps (steps_trans (steps_trans hrun hlaunch'.steps) hmore')
    have hmap : (s.map plan bodies).2 = gather config.failurePolicy rs := by
      rw [Simulation.map_eq, houtcomes, hconfig]
      rfl
    exact ⟨(gather_iff (indexed_of_items hitems')).mp hmap.symm, es', m', tickets', fs', hlaunch',
      hmore', hsettled'⟩

/-- A pool with one worker, which was just started. -/
def started : Pool Nat :=
  ((create { minWorkers := 1, maxWorkers := 1 } 0).start (fun _ => true) true 0).1

def mixed : List (Result Nat) := [.ok 7, .error .closed, .ok 8]

def handIn : List (Event Nat) :=
  [.enqueue 0 (.ok 7), .enqueue 1 (.error .closed), .enqueue 2 (.ok 8)]

/-- The worker runs the first two items; then a shutdown cancels the third. -/
def cutAfterTwo : List (Event Nat) :=
  [.work 0 .claim, .work 0 (.begin (.ok none) 1), .work 0 .run, .work 0 (.finish (.ok none) 2),
    .work 0 .count, .work 0 .claim, .work 0 (.begin (.ok none) 3), .work 0 .run, .close false]

theorem batch_is_its_outcomes_mixed :
    ∃ m z, (create { minWorkers := 1, maxWorkers := 1 } 0).steps [.start (fun _ => true) true 0] =
      some started ∧ Launch 0 mixed started handIn m (.ok [0, 1, 2]) ∧
      m.steps cutAfterTwo = some z ∧ (∀ rs, Reads m [0, 1, 2] cutAfterTwo z rs ↔
      rs = [.ok 7, .error (.task 1 .closed), .error .cancelled]) ∧
      Gathers .raiseOnFirst m [0, 1, 2] cutAfterTwo z (.error (.task 1 .closed)) ∧
      Gathers .collectAll m [0, 1, 2] cutAfterTwo z (.error .cancelled) := by
  have hrun : (create { minWorkers := 1, maxWorkers := 1 } 0).steps
    [.start (fun _ => true) true 0] = some started :=
    rfl
  have hlaunch : ∃ m, Launch 0 mixed started handIn m (.ok [0, 1, 2]) ∧
      ∃ z, m.steps cutAfterTwo = some z ∧
        Yields z.result? [0, 1, 2] [.ok 7, .error (.task 1 .closed), .error .cancelled] :=
    ⟨_, .item (steps_nil _) (.accepted rfl rfl) (.item (steps_nil _) (.accepted rfl rfl)
      (.item (steps_nil _) (.accepted rfl rfl) (.done 3 _))), _, rfl, rfl⟩
  obtain ⟨m, hlaunch, z, hmore, hsettled⟩ := hlaunch
  obtain ⟨_, _, hreads, hgathers, _⟩ := batch_is_its_outcomes hrun hlaunch hmore hsettled
  refine ⟨m, z, hrun, hlaunch, hmore, hreads, ?_, ?_⟩
  · refine ((hgathers .raiseOnFirst).2 _).mpr (.first (i := 1) rfl rfl fun j hj => ?_)
    obtain rfl : j = 0 := by omega
    exact ⟨7, rfl⟩
  · refine ((hgathers .collectAll).2 _).mpr (.fault (i := 2) nofun rfl rfl fun j hj g hg => ?_)
    rcases j with _ | _ | j
    · cases hg
    · cases hg; rfl
    · omega

end Headroom.Pool
