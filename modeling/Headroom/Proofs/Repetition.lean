import Headroom.Proofs.Measuring
import Headroom.Proofs.Profiling

/-!
# Calls that are measured together

A short function is called several times for each call that is measured. The clock is read only
between these groups, so a thread goes past the end of its time by up to a whole group, and a fault
can come up in the middle of one. Two ways to say what this does agree: the function is called on
and on, and the clock is read after each group (`Drives`); or the groups are the calls, each with
the times of its calls together, and they are profiled like any others.

* **`together_call`**: the times of a group, and its first fault.
* **`drives_callUntil`**: one group after the other, until the time is up.
* **`benchmark_profiles_groups`**: whole runs, and how often the function is called in each level.
-/

namespace Headroom.Profile

open Finset (range)

/-! ## Groups of calls -/

/-- Groups of `count` calls of a thread, as calls: their times together, or the first fault among
them. -/
def Course.grouped (c : Course) {count : Nat} (hcount : 0 < count) : Course where
  time i := ∑ j ∈ range count, c.time (i * count + j)
  fault i := (List.range count).findSome? fun j => c.fault (i * count + j)
  positive _ := Finset.sum_pos (fun _ _ => c.positive _) (Finset.nonempty_range_iff.mpr hcount.ne')

/-- What comes of calls in a row, `together`: the first fault among them, or the sum of
their times. -/
theorem together_call (c : Course) (first count : Nat) :
    together c.call first count =
      match (List.range count).findSome? fun j => c.fault (first + j) with
      | some f => .raises f
      | none => .takes (∑ j ∈ range count, c.time (first + j)) := by
  induction count with
  | zero => rfl
  | succ count ih =>
    rw [together, ih, List.range_succ, List.findSome?_append, Finset.sum_range_succ]
    cases (List.range count).findSome? fun j => c.fault (first + j) with
    | some f => rfl
    -- no fault so far, so the last call decides
    | none => cases hfault : c.fault (first + count) <;> simp [Course.call, hfault]

theorem call_grouped (c : Course) {count : Nat} (hcount : 0 < count) (i : Nat) :
    (c.grouped hcount).call i = together c.call (i * count) count :=
  (together_call c (i * count) count).symm

/-- The workload that a benchmark profiles has groups of calls as its calls (`Course.grouped`). -/
theorem batched_eq_grouped (fn : Nat → Nat → Course) {count : Nat} (hcount : 0 < count) :
    Workload.batched count (fun level thread => (fn level thread).call) =
      fun level thread => ((fn level thread).grouped hcount).call :=
  funext fun level => funext fun thread => funext fun i =>
    (call_grouped (fn level thread) hcount i).symm

/-! ## One call after the other -/

/-- A function is called `count` times in turn; the time after that. -/
def callTimes (fn : Nat → Call) : (count number : Nat) → (now : Int) → Except Fault Int
  | 0, _, now => .ok now
  | count + 1, number, now =>
    match fn number with
    | .raises f => .error f
    | .takes time => callTimes fn count (number + 1) (now + time)

/-- A thread calls a function, and reads the clock after every `count` calls. It comes to a number
of calls with what it measured, or to a fault. Nothing in it speaks of groups. -/
inductive Drives (fn : Nat → Call) (count : Nat) (span : Int) :
    Nat → Thread → Except Fault (Nat × Thread) → Prop
  | ends {n : Nat} {t : Thread} (hup : span ≤ t.elapsed) : Drives fn count span n t (.ok (n, t))
  | fails {n : Nat} {t : Thread} {f : Fault} (hleft : t.elapsed < span)
      (hcalls : callTimes fn count n t.elapsed = .error f) : Drives fn count span n t (.error f)
  | again {n : Nat} {t : Thread} {now : Int} {out : Except Fault (Nat × Thread)}
      (hleft : t.elapsed < span) (hcalls : callTimes fn count n t.elapsed = .ok now)
      (hrest : Drives fn count span (n + count) ⟨now, t.latencies.add (now - t.elapsed)⟩ out) :
      Drives fn count span n t out

section

variable {fn : Nat → Call} {count : Nat} {span : Int}

/-- There is one way in which a thread drives a function, so `Drives` says what comes of it and not
only what may. -/
theorem Drives.unique {n : Nat} {t : Thread} {a b : Except Fault (Nat × Thread)}
    (ha : Drives fn count span n t a) (hb : Drives fn count span n t b) : a = b := by
  induction ha with
  | ends hup =>
    cases hb with
    | ends => rfl
    | fails hleft | again hleft => exact absurd hup (Int.not_le.mpr hleft)
  | fails hleft hcalls =>
    cases hb with
    | ends hup => exact absurd hup (Int.not_le.mpr hleft)
    | fails _ hcalls' => exact congrArg Except.error (Except.error.inj (hcalls.symm.trans hcalls'))
    | again _ hcalls' => exact nomatch hcalls.symm.trans hcalls'
  | again hleft hcalls _ ih =>
    cases hb with
    | ends hup => exact absurd hup (Int.not_le.mpr hleft)
    | fails _ hcalls' => exact nomatch hcalls.symm.trans hcalls'
    | again _ hcalls' hrest =>
      cases hcalls.symm.trans hcalls'
      exact ih hrest

theorem callTimes_succ (fn : Nat → Call) (count number : Nat) (now : Int) :
    callTimes fn (count + 1) number now =
      match callTimes fn count number now, fn (number + count) with
      | .error f, _ => .error f
      | .ok _, .raises f => .error f
      | .ok now, .takes time => .ok (now + time) := by
  induction count generalizing number now with
  | zero =>
    rw [callTimes, callTimes, Nat.add_zero]
    cases fn number <;> rfl
  | succ count ih =>
    rw [callTimes, callTimes]
    cases fn number with
    | raises f => rfl
    | takes time =>
      dsimp only
      rw [ih (number + 1) (now + time), show number + 1 + count = number + (count + 1) by omega]

/-- Calling a function in turn takes the time of the calls together. -/
theorem callTimes_eq_together (fn : Nat → Call) (count number : Nat) (now : Int) :
    callTimes fn count number now =
      match together fn number count with
      | .raises f => .error f
      | .takes time => .ok (now + time) := by
  induction count with
  | zero => exact congrArg Except.ok (Int.add_zero now).symm
  | succ count ih =>
    rw [callTimes_succ, ih, together]
    cases together fn number count with
    | raises f => rfl
    | takes before =>
      cases fn (number + count) with
      | raises f => rfl
      | takes time => exact congrArg Except.ok (Int.add_assoc now before time)

theorem seen_add (r : Reservoir) (v : Int) : (r.add v).kept.seen = r.kept.seen + 1 := by
  unfold Reservoir.add
  split <;> rfl

/-- One group after the other, each from the call on at which the one before ended. The bound on the
number of groups is never reached, since each takes some time. -/
theorem drives_callUntil (hpos : Positive fun i => together fn (i * count) count) (fuel n : Nat)
    (t : Thread) (hseen : t.latencies.kept.seen = n) (hfuel : span ≤ t.elapsed + fuel) :
    Drives fn count span (n * count) t
      ((callUntil (fun i => together fn (i * count) count) span fuel n t).map fun t =>
        (t.latencies.kept.seen * count, t)) := by
  induction fuel generalizing n t with
  | zero =>
    subst hseen
    exact .ends (by omega)
  | succ fuel ih =>
    rw [callUntil]
    by_cases hup : span ≤ t.elapsed
    · subst hseen
      rw [if_pos hup]
      exact .ends hup
    · have hcalls := callTimes_eq_together fn count (n * count) t.elapsed
      rw [if_neg hup]
      cases hgroup : together fn (n * count) count with
      | raises f =>
        rw [hgroup] at hcalls
        exact .fails (Int.not_le.mp hup) hcalls
      | takes time =>
        -- the next group begins where this one ended, at a multiple of the size of a group
        rw [hgroup] at hcalls
        have htime := hpos n time hgroup
        refine .again (Int.not_le.mp hup) hcalls ?_
        rw [show n * count + count = (n + 1) * count by ring, add_sub_cancel_left]
        exact ih (n + 1) _ (by rw [seen_add, hseen]) (by show span ≤ t.elapsed + time + fuel; omega)

end

def Thread.fresh (capacity number : Nat) : Thread :=
  ⟨0, .create capacity (Reservoir.defaultSeed + number.toUInt64)⟩

/-- What comes of calling a function in groups (`Drives`) is what the thread measures of
the groups. -/
theorem drives_iff_runThread (c : Course) {count : Nat} (hcount : 0 < count) (span : Int)
    (capacity number : Nat) (out : Except Fault (Nat × Thread)) :
    Drives c.call count span 0 (.fresh capacity number) out ↔
      out = (runThread (c.grouped hcount).call span capacity number).map fun t =>
        (t.latencies.kept.seen * count, t) := by
  have hcalls : (c.grouped hcount).call = fun i => together c.call (i * count) count :=
    funext fun i => call_grouped c hcount i
  have hdrives := drives_callUntil (hcalls ▸ (c.grouped hcount).positive_call) span.toNat 0
    (.fresh capacity number) rfl
    (show span ≤ 0 + (span.toNat : Int) by omega)
  rw [← hcalls, Nat.zero_mul] at hdrives
  exact ⟨fun h => h.unique hdrives, fun h => h ▸ hdrives⟩

/-! ## Levels and runs -/

/-- The threads of a level, each with its number of calls, measure the level together. -/
structure Drove (courses : Nat → Course) (count : Nat) (span : Int) (capacity threads : Nat)
    (made : Nat → Nat × Thread) (l : Level Float) : Prop where
  thread : ∀ t < threads, ∀ out,
    Drives (courses t).call count span 0 (.fresh capacity t) out ↔ out = .ok (made t)
  level : l = .ofThreads ((List.range threads).map fun t => (made t).2)
  calls : ∑ t ∈ range threads, (made t).1 = count * l.operations

/-- A level that is measured of groups was driven by its threads (`Drove`). -/
theorem drove_of_runLevel (courses : Nat → Course) {count : Nat} (hcount : 0 < count)
    {threads : Nat} {span : Int} {capacity : Nat} {l : Level Float}
    (hl : runLevel (fun t => ((courses t).grouped hcount).call) threads span capacity = .ok l) :
    ∃ made, Drove courses count span capacity threads made l := by
  choose k hk using fun t => ((courses t).grouped hcount).exists_lasts span
  have hquiet := quiet_of_runLevel hk hl
  obtain rfl := Except.ok.inj (hl.symm.trans (runLevel_of_quiet hk hquiet))
  refine ⟨fun t => (k t * count, ((courses t).grouped hcount).done capacity t (k t)), ?_, rfl, ?_⟩
  · intro t ht out
    rw [drives_iff_runThread (courses t) hcount, Course.runThread_course (hk t) (hquiet t ht)]
    show out = .ok ((((courses t).grouped hcount).intake capacity t (k t)).kept.seen * count, _) ↔ _
    rw [Course.seen_intake]
  · rw [operations_ofThreads, Finset.mul_sum]
    exact Finset.sum_congr rfl fun t _ => Nat.mul_comm (k t) count

/-- The levels of an analysis are measured, each with its own number of threads. -/
theorem Ends.runLevel_eq {c : Config} {w : Workload} {a : Analysis Float} (hw : w.Positive)
    (h : Ends c w a) {i : Nat} {l : Level Float} (hl : a.levels[i]? = some l) :
    ∃ threads, (threadCounts c.maxThreads)[i]? = some threads ∧
      runLevel (w i) threads c.span c.reservoir = .ok l := by
  obtain ⟨k, hquiet, ⟨complete, failure, rfl⟩, -⟩ := h.covers
  change (analyze (firstLevels c w k) complete c.cliffDrop).levels[i]? = some l at hl
  rw [levels_analyze] at hl
  have hi : i < k := length_firstLevels hw hquiet ▸ (List.getElem?_eq_some_iff.mp hl).1
  rw [getElem?_firstLevels hw hquiet hi] at hl
  obtain ⟨threads, hthreads, hlevel⟩ := Option.bind_eq_some_iff.mp hl
  refine ⟨threads, hthreads, ?_⟩
  cases hrun : runLevel (w i) threads c.span c.reservoir with
  | error f => rw [hrun] at hlevel; cases hlevel
  | ok l' => rw [hrun] at hlevel; cases hlevel; rfl

/-- **A benchmark profiles groups of calls.** Where the time of a level fits into a word of 64 bits,
it returns what profiling returns of the workload whose calls are the groups: each takes the times
of its calls together, and raises a fault iff one of them does, namely the first one. What a thread
comes to is what it comes to by calling the function itself, again and again. So in every level of
the analysis the function is called `count` times for each operation. -/
theorem benchmark_profiles_groups (fn : Nat → Nat → Course) {count : Nat} (hcount : 0 < count)
    (maxThreads durationMs : Int) (hspan : durationMs * 1000000 < 2 ^ 63) :
    benchmark (fun level thread => (fn level thread).call) count maxThreads durationMs =
      profile (fun level thread => ((fn level thread).grouped hcount).call) maxThreads durationMs ∧
    (∀ level thread (span : Int64) capacity number out,
      Drives (fn level thread).call count span.toInt 0 (.fresh capacity number) out ↔
        out = (runThread ((fn level thread).grouped hcount).call span.toInt capacity number).map
          fun t => (t.latencies.kept.seen * count, t)) ∧
    ∀ a log,
      benchmark (fun level thread => (fn level thread).call) count maxThreads durationMs =
        .ok (a, log) →
      ∀ i l, a.levels[i]? = some l → ∃ threads, (threadCounts maxThreads)[i]? = some threads ∧
        ∃ made, Drove (fn i) count (durationMs * 1000000) (Config.reservoir {}) threads made l := by
  have hprofile :
      benchmark (fun level thread => (fn level thread).call) count maxThreads durationMs =
        profile (fun level thread => ((fn level thread).grouped hcount).call) maxThreads
          durationMs := by
    rw [benchmark, if_neg (by omega), Int.toNat_natCast, batched_eq_grouped fn hcount]
  refine ⟨hprofile, fun level thread span capacity number out =>
    drives_iff_runThread _ hcount _ _ _ out, ?_⟩
  intro a log hrun i l hl
  rw [hprofile] at hrun
  -- a group takes at least as long as one call, so groups are calls of a workload
  have hpositive : Workload.Positive fun level thread => ((fn level thread).grouped hcount).call :=
    fun level thread => ((fn level thread).grouped hcount).positive_call
  have hvalid : Config.problem? { maxThreads, durationMs } = none := by
    unfold profile run at hrun
    split at hrun
    · cases hrun
    · next hnone => exact hnone
  -- the level is one that the run of the groups has measured, and `Drove` reads it as calls
  obtain ⟨a', log', hrun', hends⟩ := ends_run hvalid hpositive
  cases hrun.symm.trans hrun'
  obtain ⟨threads, hthreads, hlevel⟩ := hends.runLevel_eq hpositive hl
  rw [Config.span_eq hvalid hspan] at hlevel
  exact ⟨threads, hthreads, drove_of_runLevel (fn i) hcount hlevel⟩

/-- Calls of 0.3 ms. -/
def brisk : Course := ⟨fun _ => 300000, fun _ => none, fun _ => by decide⟩

/-- Pairs of calls of 0.3 ms, by one thread for 1 ms: the time is up with the second pair. -/
theorem benchmark_profiles_groups_pairs :
    0 < 2 ∧ ∃ a log l made, benchmark (fun _ _ => brisk.call) (2 : Nat) 1 1 = .ok (a, log) ∧
      a.levels[0]? = some l ∧ Drove (fun _ => brisk) 2 1000000 4096 1 made l ∧ (made 0).1 = 4 ∧
      l.operations = 2 := by
  have hpair : 0 < 2 := by decide
  have hcounts : threadCounts 1 = [1] := by simp [threadCounts, doublings]
  have hpositive : Workload.Positive fun _ _ => (brisk.grouped hpair).call :=
    fun _ _ => Course.positive_call _
  have hquiet : ∀ i f, ¬RaisesAt { maxThreads := 1, durationMs := 1 } (fun _ _ =>
    (brisk.grouped hpair).call) i f := by
    rintro i f ⟨n, -, thread, -, m, -, hcall⟩
    cases hcall
  obtain ⟨a, log, hrun, hends⟩ :=
    ends_run (c := { maxThreads := 1, durationMs := 1 }) (by decide) hpositive
  obtain ⟨l, hmeasured, -⟩ := measured_of_quiet hpositive (show (threadCounts 1)[0]? = some 1 by
    rw [hcounts]; rfl)
    (hquiet 0)
  have hl : a.levels[0]? = some l := by
    rw [hends.whole hquiet rfl, levels_analyze, getElem?_firstLevels hpositive ⟨Nat.le_refl _,
      fun j _ => hquiet j⟩ ?_]
    · exact hmeasured
    · show 0 < (threadCounts 1).length
      rw [hcounts]
      decide
  obtain ⟨hprofile, -, hlevels⟩ :=
    benchmark_profiles_groups (fun _ _ => brisk) hpair 1 1 (by decide)
  obtain ⟨threads, hthreads, made, hdrove⟩ := hlevels a log (hprofile.trans hrun) 0 l hl
  obtain rfl : 1 = threads := by rw [hcounts] at hthreads; exact Option.some.inj hthreads
  have hmade : ∃ t, Drives brisk.call 2 1000000 0 (.fresh 4096 0) (.ok (4, t)) :=
    ⟨_, .again (by decide) rfl (.again (by decide) rfl (.ends (by decide)))⟩
  obtain ⟨t, ht⟩ := hmade
  have hfirst : (made 0).1 = 4 :=
    congrArg Prod.fst (Except.ok.inj ((hdrove.thread 0 (by decide) _).mp ht)).symm
  have hcalls := hdrove.calls
  rw [Finset.sum_range_one, hfirst] at hcalls
  exact ⟨hpair, a, log, l, made, hprofile.trans hrun, hl, hdrove, hfirst, by omega⟩

end Headroom.Profile
