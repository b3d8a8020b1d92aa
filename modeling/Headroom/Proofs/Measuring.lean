import Headroom.Proofs.Levels
import Headroom.Proofs.Quantiles
import Headroom.Proofs.Rounding

/-!
# What a level accounts for

A thread calls until its time is up, and the last call may end at any time after that. How many
calls this makes is said by the times of the calls alone: as many as it takes for their sum to reach
the time of the level. The count, the latencies that are kept and the time that has passed come from
three different sums, which all run over these calls.

* **`callUntil_course`**: what is left of the calls of a thread, from any of them on.
* **`runThread_course`**: what a thread has done in the end.
* **`level_accounts_for_calls`**: what a level consists of, and what it fails with.
-/

namespace Headroom.Profile

open Finset (range)

/-! ## One thread -/

/-- The calls of one thread: the time of each, and the fault that it raises instead, if any. Times
are positive, so every span of time is used up in the end. -/
structure Course where
  time : Nat → Int
  fault : Nat → Option Fault
  positive : ∀ n, 0 < time n

namespace Course

def call (c : Course) (n : Nat) : Call :=
  match c.fault n with
  | some f => .raises f
  | none => .takes (c.time n)

/-- The time that the first `n` calls take together. -/
def upTo (c : Course) (n : Nat) : Int := ∑ i ∈ range n, c.time i

/-- The number `k` of calls with which the time of a level is up: the least one that uses up the
span. -/
def Lasts (c : Course) (span : Int) (k : Nat) : Prop := IsLeast {n | span ≤ c.upTo n} k

variable (c : Course)

theorem call_of_quiet {n : Nat} (h : c.fault n = none) : c.call n = .takes (c.time n) := by
  rw [call, h]

theorem call_eq_raises_iff {n : Nat} {f : Fault} : c.call n = .raises f ↔ c.fault n = some f := by
  unfold call
  split
  · next g hg => rw [hg, Call.raises.injEq, Option.some.injEq]
  · next hnone => exact iff_of_false nofun (by rw [hnone]; nofun)

theorem positive_call : Positive c.call := by
  intro n time h
  unfold call at h
  split at h
  · cases h
  · cases h
    exact c.positive n

theorem upTo_succ (n : Nat) : c.upTo (n + 1) = c.upTo n + c.time n := Finset.sum_range_succ ..

theorem upTo_lt_upTo_iff {m n : Nat} : c.upTo m < c.upTo n ↔ m < n := by
  have hmono : StrictMono c.upTo := strictMono_nat_of_lt_succ fun n => by
    have := c.positive n
    rw [upTo_succ]
    omega
  exact hmono.lt_iff_lt

theorem le_upTo (n : Nat) : (n : Int) ≤ c.upTo n := by
  induction n with
  | zero => exact Int.le_refl 0
  | succ n ih =>
    have := c.positive n
    rw [upTo_succ]
    omega

/-- Every course `Lasts` for some number of calls, since each takes at least a nanosecond. -/
theorem exists_lasts (span : Int) : ∃ k, c.Lasts span k := by
  have hsome : ∃ n, span ≤ c.upTo n := ⟨span.toNat, by have := c.le_upTo span.toNat; omega⟩
  exact ⟨Nat.find hsome, Nat.find_spec hsome, fun n hn => Nat.find_le hn⟩

variable {c} {span : Int} {k : Nat}

/-- A call is made exactly if those before it have left some time. -/
theorem Lasts.lt_iff (hk : c.Lasts span k) {n : Nat} : n < k ↔ c.upTo n < span := by
  constructor
  · intro hlt
    by_contra hup
    exact absurd (hk.2 (Int.not_lt.mp hup)) (Nat.not_le.mpr hlt)
  · intro hleft
    exact c.upTo_lt_upTo_iff.mp (hleft.trans_le hk.1)

theorem Lasts.le_toNat (hk : c.Lasts span k) : k ≤ span.toNat :=
  hk.2 (show span ≤ c.upTo span.toNat by have := c.le_upTo span.toNat; omega)

/-- From any call `n` on, a thread makes the calls that are left. By induction on the fuel, which
counts down as `n` goes up to `k`. -/
theorem callUntil_course (hk : c.Lasts span k) (hquiet : ∀ i < k, c.fault i = none) (fuel n : Nat)
    (hn : n ≤ k) (hfuel : k ≤ n + fuel) (r : Reservoir) :
    callUntil c.call span fuel n ⟨c.upTo n, r⟩ =
      .ok ⟨c.upTo k, r.addAll ((List.range' n (k - n)).map c.time)⟩ := by
  -- the time that has passed is always that of the calls made so far, so it says which call is next
  induction fuel generalizing n r with
  | zero =>
    obtain rfl : n = k := by omega
    rw [Nat.sub_self]
    rfl
  | succ fuel ih =>
    rw [callUntil]
    by_cases hleft : n < k
    · rw [if_neg (Int.not_le.mpr (hk.lt_iff.mp hleft)), c.call_of_quiet (hquiet n hleft)]
      dsimp only
      rw [← upTo_succ, ih (n + 1) hleft (by omega), show k - n = k - (n + 1) + 1 by
        omega, List.range'_succ]
      rfl
    · obtain rfl : n = k := by omega
      have hup : span ≤ c.upTo n := hk.1
      rw [if_pos hup, Nat.sub_self]
      rfl

/-- What was put into the reservoir of a thread: the times of its first `k` calls. -/
def intake (c : Course) (capacity number k : Nat) : Quantile.Intake :=
  ⟨capacity, Reservoir.defaultSeed + number.toUInt64, (List.range k).map c.time⟩

theorem seen_intake (c : Course) (capacity number k : Nat) :
    (c.intake capacity number k).kept.seen = k := by
  rw [(Quantile.Intake.sampled_kept _).seen, intake, List.length_map, List.length_range]

/-- What a thread has done after `k` calls. -/
def done (c : Course) (capacity number k : Nat) : Thread :=
  ⟨c.upTo k, (Reservoir.create capacity (Reservoir.defaultSeed + number.toUInt64)).addAll
    ((List.range k).map c.time)⟩

/-- A thread without faults makes the calls that its course `Lasts` for. The fuel that the program
has, the span in nanoseconds, is enough. -/
theorem runThread_course (hk : c.Lasts span k) (hquiet : ∀ i < k, c.fault i = none)
    (capacity number : Nat) :
    runThread c.call span capacity number = .ok (c.done capacity number k) := by
  have hrun := callUntil_course hk hquiet span.toNat 0 (Nat.zero_le k)
    (by have := hk.le_toNat; omega)
    (.create capacity (Reservoir.defaultSeed + number.toUInt64))
  rwa [Nat.sub_zero, ← List.range_eq_range'] at hrun

theorem spent_call_iff {n : Nat} {total : Int} :
    spent c.call n = some total ↔ (∀ i < n, c.fault i = none) ∧ c.upTo n = total := by
  induction n generalizing total with
  | zero => simp [spent, upTo]
  | succ n ih =>
    constructor
    · intro h
      obtain ⟨before, time, hbefore, hcall, rfl⟩ := spent_pred h
      obtain ⟨hquiet, hupTo⟩ := ih.mp hbefore
      have hnone : c.fault n = none := by
        unfold call at hcall
        split at hcall
        · cases hcall
        · next hnone => exact hnone
      rw [c.call_of_quiet hnone] at hcall
      cases hcall
      exact ⟨Nat.forall_lt_succ_right.mpr ⟨hquiet, hnone⟩, by rw [upTo_succ, hupTo]⟩
    · rintro ⟨hquiet, rfl⟩
      obtain ⟨hbefore, hnone⟩ := Nat.forall_lt_succ_right.mp hquiet
      rw [upTo_succ]
      exact spent_succ (ih.mpr ⟨hbefore, rfl⟩) (c.call_of_quiet hnone)

/-- A thread `Raises` the first fault that it gets to, if it gets to any before its time is up. -/
theorem raises_call_iff (hk : c.Lasts span k) {f : Fault} :
    Raises c.call span f ↔ ∃ n < k, c.fault n = some f ∧ ∀ i < n, c.fault i = none := by
  constructor
  · rintro ⟨n, ⟨total, hspent, hleft⟩, hcall⟩
    obtain ⟨hquiet, rfl⟩ := spent_call_iff.mp hspent
    exact ⟨n, hk.lt_iff.mpr hleft, c.call_eq_raises_iff.mp hcall, hquiet⟩
  · rintro ⟨n, hn, hfault, hquiet⟩
    exact ⟨n, ⟨_, spent_call_iff.mpr ⟨hquiet, rfl⟩, hk.lt_iff.mp hn⟩,
      c.call_eq_raises_iff.mpr hfault⟩

/-- Of the faults that a thread could get to, it gets to the first one. -/
theorem raises_of_fault (hk : c.Lasts span k) {n : Nat} (hn : n < k) (hfault : c.fault n ≠ none) :
    ∃ f, Raises c.call span f := by
  have hsome : ∃ i, c.fault i ≠ none := ⟨n, hfault⟩
  obtain ⟨f, hf⟩ := Option.ne_none_iff_exists'.mp (Nat.find_spec hsome)
  have hfirst : ∀ i < Nat.find hsome, c.fault i = none :=
    fun i hi => not_not.mp (Nat.find_min hsome hi)
  exact ⟨f, (raises_call_iff hk).mpr ⟨_, (Nat.find_le hfault).trans_lt hn, hf, hfirst⟩⟩

end Course

/-! ## Sums over the threads -/

theorem foldl_add_eq_sum {α : Type} (size : α → Nat) (xs : List α) :
    xs.foldl (fun n x => n + size x) 0 = (xs.map size).sum := by
  rw [List.sum_eq_foldl, List.foldl_map]

theorem sum_map_range (size : Nat → Nat) (n : Nat) :
    ((List.range n).map size).sum = ∑ t ∈ range n, size t := rfl

/-- The running maximum of a fold is the greatest of all that it has met. -/
theorem foldl_max_isGreatest (xs : List Int) (n : Int) :
    IsGreatest {x | x ∈ n :: xs} (xs.foldl max n) :=
  List.max?_eq_some_iff.mp List.max?_cons'

theorem mapM_of_ok {α β ε : Type} {g : α → Except ε β} {h : α → β} {xs : List α}
    (hok : ∀ x ∈ xs, g x = .ok (h x)) :
    xs.mapM g = .ok (xs.map h) := by
  induction xs with
  | nil => rfl
  | cons x xs ih =>
    rw [List.mapM_cons, hok x List.mem_cons_self, ih fun y hy => hok y (List.mem_cons_of_mem _ hy)]
    rfl

/-- The doubles that are summed up are counts, so their sum has no sign. -/
theorem unsigned_total (parts : List Kept) : Rounding.Unsigned (Quantile.total parts) := by
  have hfold : ∀ (ks : List Kept) (sum : Float), Rounding.Unsigned sum →
      Rounding.Unsigned (ks.foldl (fun sum k => sum + (k.seen : Float)) sum) := by
    intro ks
    induction ks with
    | nil => exact fun _ h => h
    | cons k ks ih => exact fun sum h => ih _ (h.add (Rounding.unsigned_natCast k.seen))
  exact hfold _ _ (Rounding.unsigned_natCast 0)

/-- The median latency is at most the latency that one call in a hundred exceeds, as computed with
doubles. The targets are in order by `half_lt_of_most_lt`, and `merged_le_merged` does the rest. -/
theorem median_le_most (parts : List Kept) :
    Quantile.merged parts (0.5 : Float) ≤ Quantile.merged parts (0.99 : Float) :=
  Quantile.merged_le_merged fun _ => Rounding.half_lt_of_most_lt (unsigned_total parts)

/-! ## One level -/

/-- What a level consists of, if thread `t` makes `k t` calls. -/
structure Accounts (courses : Nat → Course) (k : Nat → Nat) (count : Nat) (span : Int)
    (capacity : Nat) (l : Level Float) : Prop where
  threads : l.threads = count
  operations : l.operations = ∑ t ∈ range count, k t
  samples : l.samples = ∑ t ∈ range count, min (k t) capacity
  elapsed : IsGreatest {time | ∃ t < count, time = ∑ i ∈ range (k t), (courses t).time i} l.elapsed
  span_le : span ≤ l.elapsed
  p50 : ∃ t < count, ∃ i < k t, l.p50 = (courses t).time i
  p99 : ∃ t < count, ∃ i < k t, l.p99 = (courses t).time i
  p50_le : l.p50 ≤ l.p99

section

variable {courses : Nat → Course} {k : Nat → Nat} {count : Nat} {span : Int} {capacity : Nat}

/-- A level whose threads raise no fault is put together from what each of them has done. -/
theorem runLevel_of_quiet (hk : ∀ t, (courses t).Lasts span (k t))
    (hquiet : ∀ t < count, ∀ i < k t, (courses t).fault i = none) :
    runLevel (fun t => (courses t).call) count span capacity =
      .ok (.ofThreads ((List.range count).map fun t => (courses t).done capacity t (k t))) := by
  unfold runLevel
  rw [mapM_of_ok fun t ht => Course.runThread_course (hk t) (hquiet t (List.mem_range.mp ht))
    capacity t]
  rfl

/-- A level that comes about had no fault in any call that was made. -/
theorem quiet_of_runLevel (hk : ∀ t, (courses t).Lasts span (k t)) {l : Level Float}
    (hl : runLevel (fun t => (courses t).call) count span capacity = .ok l) :
    ∀ t < count, ∀ i < k t, (courses t).fault i = none := by
  intro t ht i hi
  by_contra hfault
  obtain ⟨f, hraises⟩ := Course.raises_of_fault (hk t) hi hfault
  rcases runLevel_cases (fun t => (courses t).positive_call) count span capacity
    with ⟨_, -, -, hnone⟩ | ⟨_, hf, -⟩
  · exact hnone t ht f hraises
  · exact nomatch hl.symm.trans hf

/-- What the reservoirs of the threads keep, thread by thread: what the quantiles of a level are
computed from. -/
def keptBy (courses : Nat → Course) (k : Nat → Nat) (count capacity : Nat) : List Kept :=
  (List.range count).map fun t => ((courses t).intake capacity t (k t)).kept

theorem kept_ofThreads :
    ((List.range count).map fun t => (courses t).done capacity t (k t)).map (·.latencies.kept) =
      keptBy courses k count capacity := List.map_map

/-- A quantile of the latencies, as `merged` computes it, is the time of a call, be it computed with
rounding. -/
theorem exists_call_of_merged (hk : ∀ t, (courses t).Lasts span (k t)) (hcount : 0 < count)
    (hspan : 0 < span) (q : Float) :
    ∃ t < count, ∃ i < k t, Quantile.merged (keptBy courses k count capacity) q =
      (courses t).time i := by
  have hsome : ∃ kept ∈ keptBy courses k count capacity, kept.values ≠ #[] := by
    refine ⟨_, List.mem_map.mpr ⟨0, List.mem_range.mpr hcount, rfl⟩, fun hempty => ?_⟩
    have hnil := (Quantile.Intake.size_kept_eq_zero_iff _).mp (congrArg Array.size hempty)
    have hcalls : 0 < k 0 := (hk 0).lt_iff.mpr hspan
    have hlength := congrArg List.length hnil
    simp only [Course.intake, List.length_map, List.length_range, List.length_nil] at hlength
    omega
  obtain ⟨kept, hkept, hmem⟩ := Quantile.merged_mem hsome q
  obtain ⟨t, ht, rfl⟩ := List.mem_map.mp hkept
  obtain ⟨i, hi, heq⟩ := List.mem_map.mp (Quantile.Intake.mem_kept hmem)
  exact ⟨t, List.mem_range.mp ht, i, List.mem_range.mp hi, heq.symm⟩

/-- The time of a level is that of the thread that ends last; each of them uses the time up. -/
theorem elapsed_isGreatest (hk : ∀ t, (courses t).Lasts span (k t)) (hcount : 0 < count)
    (hspan : 0 < span) :
    IsGreatest {time | ∃ t < count, time = (courses t).upTo (k t)}
      (((List.range count).map fun t => (courses t).upTo (k t)).foldl max 0) := by
  obtain ⟨hmem, hgreatest⟩ := foldl_max_isGreatest ((List.range count).map fun t =>
    (courses t).upTo (k t)) 0
  have hbound : ∀ t < count, (courses t).upTo (k t) ≤
      ((List.range count).map fun t => (courses t).upTo (k t)).foldl max 0 := fun t ht =>
    hgreatest (List.mem_cons_of_mem _ (List.mem_map.mpr ⟨t, List.mem_range.mpr ht, rfl⟩))
  refine ⟨?_, ?_⟩
  · rcases List.mem_cons.mp hmem with hzero | hmem
    · -- the fold starts at zero, which every thread exceeds
      have hfirst : span ≤ (courses 0).upTo (k 0) := (hk 0).1
      have := hbound 0 hcount
      omega
    · obtain ⟨t, ht, heq⟩ := List.mem_map.mp hmem
      exact ⟨t, List.mem_range.mp ht, heq.symm⟩
  · rintro _ ⟨t, ht, rfl⟩
    exact hbound t ht

theorem operations_ofThreads :
    (Level.ofThreads ((List.range count).map fun t =>
      (courses t).done capacity t (k t))).operations =
      ∑ t ∈ range count, k t := by
  show List.foldl _ _ _ = _
  rw [kept_ofThreads, foldl_add_eq_sum, keptBy, List.map_map, ← sum_map_range]
  exact congrArg List.sum (List.map_congr_left fun t _ => (courses t).seen_intake capacity t (k t))

/-- A level that is put together from its threads accounts for all their calls (`Accounts`). -/
theorem accounts_ofThreads (hk : ∀ t, (courses t).Lasts span (k t)) (hcount : 0 < count)
    (hspan : 0 < span) (hcapacity : 1 ≤ capacity) :
    Accounts courses k count span capacity
      (.ofThreads ((List.range count).map fun t => (courses t).done capacity t (k t))) := by
  have helapsed : IsGreatest {time | ∃ t < count, time = (courses t).upTo (k t)}
      ((((List.range count).map fun t => (courses t).done capacity t (k t)).map
        Thread.elapsed).foldl max 0) := by
    rw [List.map_map]
    exact elapsed_isGreatest hk hcount hspan
  refine ⟨?_, operations_ofThreads, ?_, helapsed, ?_, ?_, ?_, median_le_most _⟩
  · show ((List.length _ : Nat) : Int) = count
    rw [List.length_map, List.length_range]
  · show List.foldl _ _ _ = _
    rw [kept_ofThreads, foldl_add_eq_sum, keptBy, List.map_map, ← sum_map_range]
    -- each thread keeps as many calls as there is room for
    refine congrArg List.sum (List.map_congr_left fun t _ => ?_)
    show ((courses t).intake capacity t (k t)).kept.values.size = min (k t) capacity
    rw [(Quantile.Intake.sampled_kept _).size, Quantile.Intake.capacity_kept]
    simp only [Course.intake, List.length_map, List.length_range]
    omega
  · obtain ⟨t, -, ht⟩ := helapsed.1
    exact (hk t).1.trans_eq ht.symm
  · show ∃ t < count, ∃ i < k t, Quantile.merged _ _ = _
    rw [kept_ofThreads]
    exact exists_call_of_merged hk hcount hspan _
  · show ∃ t < count, ∃ i < k t, Quantile.merged _ _ = _
    rw [kept_ofThreads]
    exact exists_call_of_merged hk hcount hspan _

end

/-- The message of a fault is its own, and a foreign value has none. -/
theorem reason_cases (f : Fault) :
    f.kind = .foreign ∧ f.reason = text "unknown exception" ∨ f.kind ≠ .foreign ∧
    f.message? = some f.reason := by
  cases f with
  | raised kind message =>
    cases kind with
    | foreign => exact .inl ⟨rfl, rfl⟩
    | _ => exact .inr ⟨nofun, rfl⟩
  | _ => exact .inr ⟨nofun, rfl⟩

/-- **What a level accounts for.** The time of the level is a word of 64 bits. Each thread makes as
many calls as it takes to use it up. If none of them raises a fault, the level counts them all,
keeps up to `capacity` latencies of each thread, lasts as long as the thread that ends last, and its
quantiles are times of calls, in order. Else there is no level, and what is reported is the first
fault of one of the threads that raise one. -/
theorem level_accounts_for_calls (courses : Nat → Course) {count : Nat} (hcount : 0 < count)
    {span : Int64} (hspan : 0 < span.toInt) {capacity : Nat} (hcapacity : 1 ≤ capacity) :
    ∃ k : Nat → Nat, (∀ t, IsLeast {n | span.toInt ≤ ∑ i ∈ range n, (courses t).time i} (k t)) ∧
      ((∀ t < count, ∀ i < k t, (courses t).fault i = none) →
        ∃ l, runLevel (fun t => (courses t).call) count span.toInt capacity = .ok l ∧
          Accounts courses k count span.toInt capacity l) ∧
      ((∃ t < count, ∃ i < k t, (courses t).fault i ≠ none) →
        ∃ f, runLevel (fun t => (courses t).call) count span.toInt capacity = .error f ∧
          (∃ t < count, ∃ i < k t, (courses t).fault i = some f ∧
            ∀ j < i, (courses t).fault j = none) ∧
          (f.kind = .foreign ∧ f.reason = text "unknown exception" ∨
            f.kind ≠ .foreign ∧ f.message? = some f.reason)) := by
  choose k hk using fun t => (courses t).exists_lasts span.toInt
  refine ⟨k, hk, fun hquiet => ?_, ?_⟩
  · exact ⟨_, runLevel_of_quiet hk hquiet, accounts_ofThreads hk hcount hspan hcapacity⟩
  · rintro ⟨t, ht, i, hi, hfault⟩
    rcases runLevel_cases (fun t => (courses t).positive_call) count span.toInt capacity with
      ⟨l, hl, -⟩ | ⟨f, hf, t, ht, hraises⟩
    · exact absurd (quiet_of_runLevel hk hl t ht i hi) hfault
    · exact ⟨f, hf, ⟨t, ht, (Course.raises_call_iff (hk t)).mp hraises⟩, reason_cases f⟩

/-- Calls of 3 ns in the first thread and of 5 ns in the second one, which raises a foreign value at
a given call. -/
def twoPaces (failing : Option Nat) (t : Nat) : Course where
  time _ := 3 + 2 * t
  fault n := if t = 1 ∧ failing = some n then some (.raised .foreign []) else none
  positive _ := by omega

/-- A level of 7 ns: three calls and two, so 9 ns and 10 ns; the reservoirs have room for two
latencies each. -/
theorem level_accounts_for_calls_twoPaces :
    (0 < 2 ∧ (0 : Int) < 7 ∧ 1 ≤ 2) ∧
    (∃ l, runLevel (fun t => (twoPaces none t).call) 2 7 2 = .ok l ∧ l.operations = 5 ∧
      l.samples = 4 ∧ l.elapsed = 10) ∧
    ∃ f, runLevel (fun t => (twoPaces (some 1) t).call) 2 7 2 = .error f ∧
      f.reason = text "unknown exception" := by
  have hsum : ∀ failing t n, ∑ i ∈ range n, (twoPaces failing t).time i = n * (3 + 2 * t) :=
    fun failing t n => by
    simp [twoPaces]
  have hlasts : ∀ failing (t m : Nat), 7 ≤ (m : Int) * (3 + 2 * t) →
      (∀ n : Nat, 7 ≤ (n : Int) * (3 + 2 * t) → m ≤ n) →
        IsLeast {n : Nat | (7 : Int) ≤ ∑ i ∈ range n, (twoPaces failing t).time i} m := by
    intro failing t m hm hleast
    simp only [hsum]
    exact ⟨hm, hleast⟩
  have hfirst : ∀ failing, IsLeast {n : Nat | (7 : Int) ≤ ∑ i ∈ range n,
      (twoPaces failing 0).time i} 3 :=
    fun failing => hlasts failing 0 3 (by decide) (fun n hn => by omega)
  have hsecond : ∀ failing, IsLeast {n : Nat | (7 : Int) ≤ ∑ i ∈ range n,
      (twoPaces failing 1).time i} 2 :=
    fun failing => hlasts failing 1 2 (by decide) (fun n hn => by omega)
  refine ⟨by decide, ?_, ?_⟩
  · obtain ⟨k, hk, hquiet, -⟩ := level_accounts_for_calls (twoPaces none) (by decide : 0 < 2)
      (by decide : 0 < (7 : Int64).toInt) (by decide : 1 ≤ 2)
    obtain ⟨l, hl, haccounts⟩ := hquiet fun t _ i _ => if_neg (by simp)
    have h0 : k 0 = 3 := (hk 0).unique (hfirst none)
    have h1 : k 1 = 2 := (hk 1).unique (hsecond none)
    refine ⟨l, hl, ?_, ?_, ?_⟩
    · rw [haccounts.operations, Finset.sum_range_succ, Finset.sum_range_one, h0, h1]
    · rw [haccounts.samples, Finset.sum_range_succ, Finset.sum_range_one, h0, h1]
      rfl
    · refine haccounts.elapsed.unique ⟨⟨1, by decide, by rw [hsum, h1]; rfl⟩, ?_⟩
      rintro _ ⟨t, ht, rfl⟩
      rw [hsum]
      obtain rfl | rfl : t = 0 ∨ t = 1 := by omega
      · rw [h0]
        decide
      · rw [h1]
        decide
  · obtain ⟨k, hk, -, hraises⟩ := level_accounts_for_calls (twoPaces (some 1)) (by decide : 0 < 2)
      (by decide : 0 < (7 : Int64).toInt) (by decide : 1 ≤ 2)
    have h1 : k 1 = 2 := (hk 1).unique (hsecond (some 1))
    obtain ⟨f, hf, ⟨t, -, i, -, hfault, -⟩, -⟩ :=
      hraises ⟨1, by decide, 1, by omega, by simp [twoPaces]⟩
    refine ⟨f, hf, ?_⟩
    simp only [twoPaces] at hfault
    split at hfault
    · cases hfault
      rfl
    · cases hfault

end Headroom.Profile
