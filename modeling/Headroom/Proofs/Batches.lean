import Headroom.Pool.Batch
import Mathlib.Data.List.Sort

/-!
# What a batch comes to

`Comes` says, without any loop, what the results of its items make of a batch: its values, the first
fault, a fault of the pool, or all failures together. Both ways to do a batch are measured against
it.

* **`gather_iff`**: what is made of the results in the pool is what they come to.
* **`gather_eq_report`**: it can be had by reading one result after the other, up to a fault that
  ends it.
* **`sequential_eq_gather`**: a batch that is done one item after the other is worth the same as one
  whose results are gathered, as long as the policy is one of the two that have a name.
* **`sequential_iff`**: `Applied` says what it is worth in terms of the items and the function
  alone, and `Known` how its fault is reported.

Results are by position. In the results of a batch, the failure of a task carries its own position
(`Indexed`).
-/

namespace Headroom

/-- Whether a fault is that of a task, and not of the pool. Only the former is taken down by a
policy that collects failures. -/
def Fault.isTask : Fault → Bool
  | .task .. => true
  | _ => false

theorem Fault.isTask_iff {f : Fault} : f.isTask = true ↔ ∃ i cause, f = .task i cause := by
  cases f <;> simp [isTask]

namespace Pool

variable {α β : Type}

/-! ## The results of the items -/

/-- What the items of a batch leave behind, the first of which has position `first`: a value as it
is, and a failure as `Fault.task` with the item's position. -/
def itemResults (first : Nat) (bodies : List (Result α)) : List (Result α) :=
  bodies.mapIdx fun i body => body.mapError (.task (first + i))

@[simp] theorem itemResults_nil (first : Nat) : itemResults (α := α) first [] = [] := rfl

@[simp] theorem itemResults_cons (first : Nat) (body : Result α) (rest : List (Result α)) :
    itemResults first (body :: rest) = body.mapError (.task first) :: itemResults
      (first + 1) rest := by
  simp only [itemResults, List.mapIdx_cons, Nat.add_zero, Nat.add_assoc, Nat.add_comm 1]

@[simp] theorem length_itemResults (first : Nat) (bodies : List (Result α)) :
    (itemResults first bodies).length = bodies.length := by
  simp [itemResults]

/-- What the item at index `i` leaves behind carries the position `first + i`. -/
theorem getElem?_itemResults (first : Nat) (bodies : List (Result α)) (i : Nat) :
    (itemResults first bodies)[i]? = bodies[i]?.map fun body =>
      body.mapError (.task (first + i)) := by
  simp [itemResults]

/-- The failure of a task carries its own position. `gather` relies on it to report failures in
order, and results that come from the pool have it. -/
def Indexed (results : List (Result α)) : Prop :=
  ∀ (i k : Nat) (cause : Fault), results[i]? = some (.error (.task k cause)) → k = i

theorem indexed_itemResults (bodies : List (Result α)) : Indexed (itemResults 0 bodies) := by
  intro i k cause hat
  rw [getElem?_itemResults, Option.map_eq_some_iff] at hat
  obtain ⟨body, _, hbody⟩ := hat
  cases body with
  | ok v => cases hbody
  | error f =>
    simp only [Except.mapError, Except.error.injEq, Fault.task.injEq] at hbody
    omega

/-! ## The specification -/

/-- What the results of its items make of a batch, said without a loop: all values, the first fault
that is not taken down, or the list of all failures. -/
inductive Comes (policy : FailurePolicy) (results : List (Result α)) : Result (List α) → Prop
  | values {vs : List α} (hall : results = vs.map .ok) : Comes policy results (.ok vs)
  /-- The fault with the lowest position ends the batch. -/
  | first {i : Nat} {f : Fault} (hpolicy : policy = .raiseOnFirst)
      (hat : results[i]? = some (.error f)) (hbefore : ∀ j < i, ∃ v, results[j]? = some (.ok v)) :
      Comes policy results (.error f)
  /-- The fault of the pool with the lowest position goes before all failures of tasks. -/
  | fault {i : Nat} {f : Fault} (hpolicy : policy ≠ .raiseOnFirst)
      (hat : results[i]? = some (.error f)) (hpool : f.isTask = false)
      (hbefore : ∀ j < i, ∀ g, results[j]? = some (.error g) → g.isTask = true) :
      Comes policy results (.error f)
  /-- The failures of tasks are reported together, in the order of their positions. -/
  | failures {fs : List (Nat × Fault)} (hpolicy : policy ≠ .raiseOnFirst) (hsome : fs ≠ [])
      (htasks : ∀ f, .error f ∈ results → f.isTask = true) (hsorted : fs.Pairwise fun a b =>
        a.1 < b.1)
      (hmem : ∀ i cause, (i, cause) ∈ fs ↔ results[i]? = some (.error (.task i cause))) :
      Comes policy results (.error (.batch fs results.length))

/-! ## The first fault -/

theorem firstFault_values (vs : List α) : firstFault (vs.map .ok) = .ok vs := by
  induction vs with
  | nil => rfl
  | cons v vs ih => simp [firstFault, ih, Except.map]

/-- `firstFault` stops at the first result that is not a value, whatever comes after it. -/
theorem firstFault_of_first {results : List (Result α)} {i : Nat} {f : Fault}
    (hat : results[i]? = some (.error f)) (hbefore : ∀ j < i, ∃ v, results[j]? = some (.ok v)) :
    firstFault results = .error f := by
  induction results generalizing i with
  | nil => cases hat
  | cons r rest ih =>
    cases i with
    | zero => cases hat; rfl
    | succ i =>
      obtain ⟨v, hv⟩ := hbefore 0 (Nat.succ_pos i)
      cases hv
      have hrest : firstFault rest = .error f := ih hat fun j hj =>
        hbefore (j + 1) (Nat.succ_lt_succ hj)
      simp [firstFault, hrest, Except.map]

/-- Either all results are values, or there is a first one that is not. -/
theorem values_or_first (results : List (Result α)) :
    (∃ vs : List α, results = vs.map .ok) ∨
      ∃ (i : Nat) (f : Fault), results[i]? = some (.error f) ∧ ∀ j < i, ∃ v,
        results[j]? = some (.ok v) := by
  induction results with
  | nil => exact .inl ⟨[], rfl⟩
  | cons r rest ih =>
    cases r with
    | error f => exact .inr ⟨0, f, rfl, nofun⟩
    | ok v =>
      rcases ih with ⟨vs, rfl⟩ | ⟨i, f, hat, hbefore⟩
      · exact .inl ⟨v :: vs, rfl⟩
      · refine .inr ⟨i + 1, f, hat, fun j hj => ?_⟩
        cases j with
        | zero => exact ⟨v, rfl⟩
        | succ j => exact hbefore j (Nat.lt_of_succ_lt_succ hj)

/-! ## All failures -/

theorem poolFault?_eq_some {r : Result α} {f : Fault} :
    poolFault? r = some f ↔ r = .error f ∧ f.isTask = false := by
  cases r with
  | ok v => simp [poolFault?]
  | error g =>
    constructor
    · intro h
      cases g with
      | task => cases h
      | _ => cases h; exact ⟨rfl, rfl⟩
    · rintro ⟨hg, hf⟩
      cases hg
      cases f with
      | task => cases hf
      | _ => rfl

theorem poolFault?_eq_none {r : Result α} :
    poolFault? r = none ↔ ∀ f, r = .error f → f.isTask = true := by
  rw [Option.eq_none_iff_forall_ne_some]
  refine forall_congr' fun f => ?_
  rw [ne_eq, poolFault?_eq_some, not_and, Bool.not_eq_false]

theorem itemFailure?_eq_some {r : Result α} {i : Nat} {cause : Fault} :
    itemFailure? r = some (i, cause) ↔ r = .error (.task i cause) := by
  unfold itemFailure?
  split <;> simp_all

/-- The first fault of the pool. Failures of tasks before it are passed over, which is how a batch
that collects failures still ends with a fault of the pool. -/
theorem findSome?_poolFault {results : List (Result α)} {f : Fault} :
    results.findSome? poolFault? = some f ↔
      ∃ i : Nat, results[i]? = some (.error f) ∧ f.isTask = false ∧
        ∀ j < i, ∀ g, results[j]? = some (.error g) → g.isTask = true := by
  induction results with
  | nil => simp
  | cons r rest ih =>
    rw [List.findSome?_cons]
    cases hr : poolFault? r with
    | some g =>
      -- the first result decides, unless it is a value or the failure of its own task
      obtain ⟨rfl, hg⟩ := poolFault?_eq_some.mp hr
      constructor
      · intro h
        cases h
        exact ⟨0, rfl, hg, nofun⟩
      · rintro ⟨i, hat, hf, hbefore⟩
        cases i with
        | zero => cases hat; rfl
        | succ i => cases hg.symm.trans (hbefore 0 (Nat.succ_pos i) g rfl)
    | none =>
      have htask := poolFault?_eq_none.mp hr
      refine ih.trans ⟨?_, ?_⟩
      · rintro ⟨i, hat, hf, hbefore⟩
        refine ⟨i + 1, hat, hf, fun j hj g hg => ?_⟩
        cases j with
        | zero => exact htask g (Option.some.inj hg)
        | succ j => exact hbefore j (Nat.lt_of_succ_lt_succ hj) g hg
      · rintro ⟨i, hat, hf, hbefore⟩
        cases i with
        | zero => cases hf.symm.trans (htask f (Option.some.inj hat))
        | succ i => exact ⟨i, hat, hf, fun j hj => hbefore (j + 1) (Nat.succ_lt_succ hj)⟩

theorem gather_values (policy : FailurePolicy) (vs : List α) :
    gather policy (vs.map .ok) = .ok vs := by
  have hnone : (vs.map .ok).findSome? (poolFault? (α := α)) = none := by simp [poolFault?]
  have hnil : (vs.map .ok).filterMap (itemFailure? (α := α)) = [] := by simp [itemFailure?]
  have hall : allFailures (vs.map .ok) = .ok vs := by
    rw [allFailures, hnone, hnil]
    simp [List.filterMap_map, Function.comp_def, Except.toOption]
  rw [gather, firstFault_values, hall, ite_self]

section

variable {results : List (Result α)} (hindexed : Indexed results)

include hindexed

/-- The failures that are collected are those of `results`, under their positions. -/
theorem mem_failures {i : Nat} {cause : Fault} :
    (i, cause) ∈ results.filterMap itemFailure? ↔ results[i]? = some (.error (.task i cause)) := by
  rw [List.mem_filterMap]
  constructor
  · rintro ⟨r, hr, hfail⟩
    obtain rfl := itemFailure?_eq_some.mp hfail
    obtain ⟨j, hj⟩ := List.mem_iff_getElem?.mp hr
    obtain rfl := hindexed j i cause hj
    exact hj
  · exact fun hat => ⟨_, List.mem_of_getElem? hat, itemFailure?_eq_some.mpr rfl⟩

theorem failures_sorted : (results.filterMap itemFailure?).Pairwise fun a b => a.1 < b.1 := by
  rw [List.pairwise_filterMap, List.pairwise_iff_getElem]
  rintro i j hi hj hlt ⟨k, cause⟩ hk ⟨k', cause'⟩ hk'
  have hat := hindexed i k cause (List.getElem?_eq_some_iff.mpr ⟨hi, itemFailure?_eq_some.mp hk⟩)
  have hat' := hindexed j k' cause'
    (List.getElem?_eq_some_iff.mpr ⟨hj, itemFailure?_eq_some.mp hk'⟩)
  show k < k'
  omega

/-- There is only one list of all failures in the order of their positions, so `Comes` determines
what is reported. -/
theorem failures_unique {fs : List (Nat × Fault)} (hsorted : fs.Pairwise fun a b => a.1 < b.1)
    (hmem : ∀ i cause, (i, cause) ∈ fs ↔ results[i]? = some (.error (.task i cause))) :
    results.filterMap itemFailure? = fs := by
  have : Std.Antisymm fun a b : Nat × Fault => a.1 < b.1 :=
    ⟨fun _ _ h h' => absurd h' (Nat.lt_asymm h)⟩
  have : Std.Irrefl fun a b : Nat × Fault => a.1 < b.1 := ⟨fun a => Nat.lt_irrefl a.1⟩
  refine (failures_sorted hindexed).eq_of_mem_iff hsorted fun ⟨i, cause⟩ => ?_
  rw [mem_failures hindexed, hmem]

/-- **What is gathered is what the results come to.** `gather` computes `Comes`, which is thereby a
function. -/
theorem gather_iff {policy : FailurePolicy} {r : Result (List α)} :
    gather policy results = r ↔ Comes policy results r := by
  have hall (hpolicy : policy ≠ .raiseOnFirst) :
      gather policy results = allFailures results := if_neg hpolicy
  constructor
  · rintro rfl
    rcases values_or_first results with ⟨vs, rfl⟩ | ⟨i, f, hat, hbefore⟩
    · rw [gather_values]
      exact .values rfl
    · by_cases hpolicy : policy = .raiseOnFirst
      · rw [gather, if_pos hpolicy, firstFault_of_first hat hbefore]
        exact .first hpolicy hat hbefore
      · rw [hall hpolicy, allFailures]
        have hfault : .error f ∈ results := List.mem_of_getElem? hat
        split
        · next hg =>
          obtain ⟨k, hat', hpool, hbefore'⟩ := findSome?_poolFault.mp hg
          exact .fault hpolicy hat' hpool hbefore'
        · next hnone hnil =>
          -- the first fault would be that of a task, and there is none
          have htask := poolFault?_eq_none.mp (List.findSome?_eq_none_iff.mp hnone _ hfault) f rfl
          obtain ⟨k, cause, rfl⟩ := Fault.isTask_iff.mp htask
          cases List.filterMap_eq_nil_iff.mp hnil _ hfault
        · next hnone hsome =>
          refine .failures hpolicy hsome (fun g hg => ?_) (failures_sorted hindexed) fun _ _ =>
            mem_failures hindexed
          exact poolFault?_eq_none.mp (List.findSome?_eq_none_iff.mp hnone _ hg) g rfl
  · intro h
    cases h with
    | values hvalues => rw [hvalues, gather_values]
    | first hpolicy hat hbefore => rw [gather, if_pos hpolicy, firstFault_of_first hat hbefore]
    | fault hpolicy hat hpool hbefore =>
      rw [hall hpolicy, allFailures, findSome?_poolFault.mpr ⟨_, hat, hpool, hbefore⟩]
    | @failures fs hpolicy hsome htasks hsorted hmem =>
      have hnone : results.findSome? poolFault? = none :=
        List.findSome?_eq_none_iff.mpr fun r hr => poolFault?_eq_none.mpr fun f hf =>
          htasks f (hf ▸ hr)
      rw [hall hpolicy, allFailures, hnone, failures_unique hindexed hsorted hmem]
      cases fs with
      | nil => exact absurd rfl hsome
      | cons => rfl

end

/-! ## One result after the other -/

/-- The failure that a fault is taken down as, if `policy` collects failures and it is the failure
of a task. -/
def collected (policy : FailurePolicy) : Fault → Option (Nat × Fault)
  | .task i cause => if policy = .raiseOnFirst then none else some (i, cause)
  | _ => none

/-- The values and the failures among results that are read one after the other, up to a fault that
is not taken down. This is the loop that a caller performs, while `gather` looks at all results at
once. -/
def tally (policy : FailurePolicy) : List (Result α) → Result (List α × List (Nat × Fault))
  | [] => .ok ([], [])
  | .ok v :: rest => (tally policy rest).map fun (vs, fs) => (v :: vs, fs)
  | .error f :: rest =>
    match collected policy f with
    | none => .error f
    | some failure => (tally policy rest).map fun (vs, fs) => (vs, failure :: fs)

/-- What values and failures make of a batch of `total` items. -/
def report (total : Nat) : Result (List α × List (Nat × Fault)) → Result (List α)
  | .error f => .error f
  | .ok (vs, []) => .ok vs
  | .ok (_, failures) => .error (.batch failures total)

/-- Under `raiseOnFirst` nothing is taken down, so the loop is `firstFault`. -/
theorem tally_raise (results : List (Result α)) :
    tally .raiseOnFirst results = (firstFault results).map (·, []) := by
  induction results with
  | nil => rfl
  | cons r rest ih =>
    cases r with
    | ok v =>
      rw [tally, ih, firstFault]
      cases firstFault rest <;> rfl
    | error f => cases f <;> rfl

/-- Under the other policies `tally` ends at the first fault of the pool, and otherwise has all
values and all failures. -/
theorem tally_collect {policy : FailurePolicy} (hpolicy : policy ≠ .raiseOnFirst)
    (results : List (Result α)) :
    tally policy results =
      match results.findSome? poolFault? with
      | some f => .error f
      | none => .ok (results.filterMap Except.toOption, results.filterMap itemFailure?) := by
  induction results with
  | nil => rfl
  | cons r rest ih =>
    cases r with
    | ok v =>
      rw [tally, ih, List.findSome?_cons_of_isNone (by rfl)]
      cases rest.findSome? poolFault? <;> rfl
    | error f =>
      cases f with
      | task i cause =>
        rw [tally, collected, if_neg hpolicy, ih, List.findSome?_cons_of_isNone (by rfl)]
        cases rest.findSome? poolFault? <;> rfl
      | _ => rfl

/-- **What is gathered can be read off one result after the other**, as `report` of `tally`. So it
makes no difference that the program reads results as they come. -/
theorem gather_eq_report (policy : FailurePolicy) (results : List (Result α)) :
    gather policy results = report results.length (tally policy results) := by
  by_cases hpolicy : policy = .raiseOnFirst
  · rw [gather, if_pos hpolicy, hpolicy, tally_raise]
    cases firstFault results <;> rfl
  · rw [gather, if_neg hpolicy, tally_collect hpolicy, allFailures]
    cases results.findSome? poolFault? with
    | some f => rfl
    | none => cases results.filterMap itemFailure? <;> rfl

/-- Applying `fn` to one item after the other is reading the results of the items, by induction on
the items with the position generalised. -/
theorem sequentialFrom_eq_tally {policy : FailurePolicy} (hpolicy : policy ≠ .unknown)
    (fn : β → Result α) (first : Nat) (items : List β) :
    sequentialFrom (policy = .collectAll) fn first items =
      tally policy (itemResults first (items.map fn)) := by
  induction items generalizing first with
  | nil => rfl
  | cons item rest ih =>
    rw [sequentialFrom, List.map_cons, itemResults_cons]
    cases fn item with
    | ok v =>
      rw [ih]
      rfl
    | error f =>
      cases policy with
      | unknown => exact absurd rfl hpolicy
      | raiseOnFirst => rfl
      | collectAll => exact congrArg (Except.map _) (ih (first + 1))

theorem sequential_values (policy : FailurePolicy) (vs : List α) :
    sequential policy id (vs.map .ok) = .ok vs := by
  have hfrom (collect : Bool) (first : Nat) :
      sequentialFrom collect id first (vs.map .ok) = .ok (vs, []) := by
    induction vs generalizing first with
    | nil => rfl
    | cons v rest ih =>
      show (sequentialFrom collect id (first + 1) (rest.map .ok)).map _ = _
      rw [ih]
      rfl
  rw [sequential, hfrom]

/-- **A batch is worth the same in the pool and without it**, as soon as the pool gives each item,
in `itemResults`, the result that its body leaves behind. -/
theorem sequential_eq_gather {policy : FailurePolicy} (hpolicy : policy ≠ .unknown)
    (fn : β → Result α) (items : List β) :
    sequential policy fn items = gather policy (itemResults 0 (items.map fn)) := by
  have hreport : sequential policy fn items =
      report items.length (sequentialFrom (policy = .collectAll) fn 0 items) := by
    rw [sequential]
    split <;> simp_all [report]
  rw [hreport, sequentialFrom_eq_tally hpolicy, gather_eq_report, length_itemResults,
    List.length_map]

theorem sequential_map {policy : FailurePolicy} (fn : β → Result α) (items : List β) :
    sequential policy id (items.map fn) = sequential policy fn items := by
  have hfrom (collect : Bool) (first : Nat) :
      sequentialFrom collect id first (items.map fn) = sequentialFrom collect fn first items := by
    induction items generalizing first with
    | nil => rfl
    | cons item rest ih => simp only [List.map_cons, sequentialFrom, id, ih]
  rw [sequential, sequential, hfrom, List.length_map]

/-! ## What a function makes of its items -/

/-- What a function makes of a list of items, under the two policies that have a name. It speaks of
`fn` and `items` only, and of no results in between. -/
inductive Applied (policy : FailurePolicy) (fn : β → Result α) (items : List β) : Result (List α) →
    Prop
  | values {vs : List α} (hall : items.map fn = vs.map .ok) : Applied policy fn items (.ok vs)
  /-- The item with the lowest position that fails ends the batch. -/
  | first {i : Nat} {cause : Fault} (hpolicy : policy = .raiseOnFirst)
      (hat : items[i]?.map fn = some (.error cause))
      (hbefore : ∀ j < i, ∃ v, items[j]?.map fn = some (.ok v)) :
      Applied policy fn items (.error (.task i cause))
  /-- All items that fail are reported, in the order of their positions. -/
  | failures {fs : List (Nat × Fault)} (hpolicy : policy = .collectAll) (hsome : fs ≠ [])
      (hsorted : fs.Pairwise fun a b => a.1 < b.1)
      (hmem : ∀ i cause, (i, cause) ∈ fs ↔ items[i]?.map fn = some (.error cause)) :
      Applied policy fn items (.error (.batch fs items.length))

section

variable {fn : β → Result α} {items : List β}

theorem itemResults_ok {i : Nat} {v : α} :
    (itemResults 0 (items.map fn))[i]? = some (.ok v) ↔ items[i]?.map fn = some (.ok v) := by
  rw [getElem?_itemResults, List.getElem?_map]
  rcases items[i]? with _ | item
  · simp
  · cases h : fn item <;> simp [h, Except.mapError]

theorem itemResults_error {i : Nat} {f : Fault} :
    (itemResults 0 (items.map fn))[i]? = some (.error f) ↔
      ∃ cause, items[i]?.map fn = some (.error cause) ∧ f = .task i cause := by
  rw [getElem?_itemResults, List.getElem?_map]
  rcases items[i]? with _ | item
  · simp
  · cases h : fn item <;> simp [h, Except.mapError, eq_comm]

theorem itemResults_values {first : Nat} {bodies : List (Result α)} {vs : List α} :
    itemResults first bodies = vs.map .ok ↔ bodies = vs.map .ok := by
  induction bodies generalizing first vs with
  | nil => rfl
  | cons body rest ih =>
    cases vs with
    | nil => simp
    | cons v vs =>
      rw [itemResults_cons, List.map_cons, List.cons_eq_cons, List.cons_eq_cons, ih]
      cases body <;> simp [Except.mapError]

/-- **What a batch is worth without the pool.** `sequential` computes `Applied`. -/
theorem sequential_iff {policy : FailurePolicy} (hpolicy : policy ≠ .unknown)
    {r : Result (List α)} :
    sequential policy fn items = r ↔ Applied policy fn items r := by
  have hlength : (itemResults 0 (items.map fn)).length = items.length := by
    rw [length_itemResults, List.length_map]
  rw [sequential_eq_gather hpolicy, gather_iff (indexed_itemResults _)]
  constructor
  · intro h
    cases h with
    | values hall => exact .values (itemResults_values.mp hall)
    | first hraise hat hbefore =>
      obtain ⟨cause, hcause, rfl⟩ := itemResults_error.mp hat
      exact .first hraise hcause fun j hj => (hbefore j hj).imp fun v => itemResults_ok.mp
    | fault _ hat hpool =>
      -- the results of items are failures of their own tasks, never of the pool
      obtain ⟨cause, _, rfl⟩ := itemResults_error.mp hat
      cases hpool
    | failures hraise hsome _ hsorted hmem =>
      have hcollect : policy = .collectAll := by
        cases policy with
        | collectAll => rfl
        | raiseOnFirst => exact absurd rfl hraise
        | unknown => exact absurd rfl hpolicy
      rw [hlength]
      refine .failures hcollect hsome hsorted fun i cause => (hmem i cause).trans ?_
      rw [itemResults_error]
      simp
  · intro h
    cases h with
    | values hall => exact .values (itemResults_values.mpr hall)
    | first hraise hat hbefore =>
      exact .first hraise (itemResults_error.mpr ⟨_, hat, rfl⟩) fun j hj =>
        (hbefore j hj).imp fun v => itemResults_ok.mpr
    | failures hcollect hsome hsorted hmem =>
      rw [← hlength]
      refine .failures (by rw [hcollect]; nofun) hsome (fun f hf => ?_) hsorted fun i cause =>
        (hmem i cause).trans ?_
      · obtain ⟨i, hi⟩ := List.mem_iff_getElem?.mp hf
        obtain ⟨cause, _, rfl⟩ := itemResults_error.mp hi
        rfl
      · rw [itemResults_error]
        simp

/-- The positions of the items that fail, in order: what a caller wants to know of a
failed batch. -/
def failing (fn : β → Result α) (items : List β) : List Nat :=
  (List.range items.length).filter fun i => items[i]?.any fun item => (fn item).toOption.isNone

theorem mem_failing {i : Nat} :
    i ∈ failing fn items ↔ ∃ cause, items[i]?.map fn = some (.error cause) := by
  rw [failing, List.mem_filter, List.mem_range]
  rcases Nat.lt_or_ge i items.length with hi | hi
  · rw [List.getElem?_eq_getElem hi]
    cases h : fn items[i] <;> simp [h, hi, Except.toOption]
  · simp [List.getElem?_eq_none hi]

theorem failing_sorted : (failing fn items).Pairwise (· < ·) :=
  List.Pairwise.filter _ List.pairwise_lt_range

/-- The positions that a list of all failures names are those of the items that are `failing`. -/
theorem failing_eq {fs : List (Nat × Fault)} (hsorted : fs.Pairwise fun a b => a.1 < b.1)
    (hmem : ∀ i cause, (i, cause) ∈ fs ↔ items[i]?.map fn = some (.error cause)) :
      fs.map Prod.fst = failing fn items := by
  refine (List.pairwise_map.mpr hsorted).eq_of_mem_iff failing_sorted fun i => ?_
  simp only [List.mem_map, Prod.exists, exists_and_right, exists_eq_right, hmem, mem_failing]

/-- How a failed batch is known: by the item with the lowest position that fails, and by what failed
there. -/
structure Known (policy : FailurePolicy) (fn : β → Result α) (items : List β) (f : Fault)
    (i : Nat) (cause : Fault) :
    Prop where
  fails : items[i]?.map fn = some (.error cause)
  before : ∀ j < i, ∃ v, items[j]?.map fn = some (.ok v)
  reports : f.index? = some i
  carries : f.cause? = some cause
  message : f.message? = some (
    if policy = .raiseOnFirst then text "task " ++ Bytes.ofNat i ++ text " failed: " ++
      cause.describe
    else Fault.batchMessage (failing fn items) items.length)

/-- A batch that fails is `Known` by its first failing item, under either policy: the one reports
only that, and the other lists it first. -/
theorem Applied.known {policy : FailurePolicy} {f : Fault}
    (h : Applied policy fn items (.error f)) :
    ∃ i cause, Known policy fn items f i cause := by
  cases h with
  | first hraise hat hbefore =>
    exact ⟨_, _, hat, hbefore, rfl, rfl, by rw [if_pos hraise, Fault.message?]; rfl⟩
  | @failures fs hcollect hsome hsorted hmem =>
    have hmessage (line : Bytes) : (Fault.batch fs items.length).message? =
        some (if policy = .raiseOnFirst then line
          else Fault.batchMessage (failing fn items) items.length) := by
      rw [hcollect, if_neg nofun, Fault.message?, failing_eq hsorted hmem]
    cases fs with
    | nil => exact absurd rfl hsome
    | cons failure rest =>
      have hat := (hmem failure.1 failure.2).mp List.mem_cons_self
      refine ⟨failure.1, failure.2, hat, fun j hj => ?_, rfl, rfl, hmessage _⟩
      obtain ⟨_, hlast, _⟩ := Option.map_eq_some_iff.mp hat
      have hlt : j < items.length := Nat.lt_trans hj (List.getElem?_eq_some_iff.mp hlast).1
      have hitem : items[j]?.map fn = some (fn items[j]) := by
        rw [List.getElem?_eq_getElem hlt]; rfl
      cases hfn : fn items[j] with
      | ok v => exact ⟨v, by rw [hitem, hfn]⟩
      | error cause =>
        -- it would be in the list before the first one
        rcases List.mem_cons.mp ((hmem j cause).mpr (by rw [hitem, hfn])) with hfirst | hlater
        · rw [← hfirst] at hj
          exact absurd hj (Nat.lt_irrefl j)
        · exact absurd hj (Nat.lt_asymm ((List.pairwise_cons.mp hsorted).1 _ hlater))

end

end Pool

end Headroom
