import Headroom.Proofs.Cliffs
import Headroom.Proofs.Levels
import Headroom.Proofs.Usability

/-!
# A pool below the cliff

The probe gives a pool no more workers than the best number of threads that a profile has found.
This module says why the cliff of the same profile is then out of reach, whatever the throughputs
were.

* **`findCliff_sublist`**: the search for a cliff returns a level that it has gone past and one that
  it comes to. With thread counts that increase, the first has fewer threads.
* **`runLevels_analyzes`**: the levels of a profiling run have the thread counts that they should
  have, in order. No law of the calls is needed for that, and so none for the cliff.
* **`Veto.reasonFor_eq_cliffDetected_iff`**: when the cliff is the first rule that speaks against a
  batch.
* **`Probe.capped_stays_below_cliff`**: all of it together. Only the least number of workers, which
  the probe does not lower, can still reach the cliff.
-/

namespace Headroom

namespace Profile

/-! ## The optimum and the cliff -/

/-- Whichever of two levels goes on as the `better` one, what is left to look at comes after it. -/
theorem better_sublist {α : Type} [LT α] [DecidableLT α] (best x : Level α) (xs : List (Level α)) :
    List.Sublist (better best x :: xs) (best :: x :: xs) := by
  unfold better
  split
  · exact List.sublist_cons_self best (x :: xs)
  · exact (List.sublist_cons_self x xs).cons_cons best

section
variable {α : Type} [OfNat α 0] [OfNat α 1] [Sub α] [Mul α] [LT α] [LE α] [DecidableLT α]
  [DecidableLE α] {drop : α}

/-- The best level is one that `findCliff` has gone past, the cliff one that it comes to, so the two
are in this order among the levels. -/
theorem findCliff_sublist {best b l : Level α} {xs : List (Level α)}
    (h : findCliff drop best xs = (b, some l)) :
    List.Sublist [b, l] (best :: xs) := by
  induction xs generalizing best with
  | nil => cases h
  | cons x xs ih =>
    unfold findCliff at h
    split at h
    · cases h
      exact (List.singleton_sublist.mpr List.mem_cons_self).cons_cons _
    · exact (ih h).trans (better_sublist best x xs)

theorem findCliff_fst_mem (best : Level α) (xs : List (Level α)) :
    (findCliff drop best xs).1 ∈ best :: xs := by
  induction xs generalizing best with
  | nil => exact List.mem_cons_self
  | cons x xs ih =>
    unfold findCliff
    split
    · exact List.mem_cons_self
    · exact (better_sublist best x xs).subset (ih _)

variable [Div α]

/-- With levels in the order of their threads, the optimum has fewer threads than the cliff. -/
theorem optimal_lt_cliff {levels : List (Level α)} {complete : Bool} {k : Int}
    (hincreasing : levels.Pairwise (·.threads < ·.threads))
    (h : (analyze levels complete drop).cliff = some k) :
    (∃ l ∈ levels, l.threads = (analyze levels complete drop).optimal) ∧
    (∃ l ∈ levels, l.threads = k) ∧
      (analyze levels complete drop).optimal < k := by
  cases levels with
  | nil => cases h
  | cons first rest =>
    have hcliff : (findCliff drop first rest).2.map Level.threads = some k := h
    obtain ⟨l, hl, rfl⟩ := Option.map_eq_some_iff.mp hcliff
    have hfound : findCliff drop first rest = ((findCliff drop first rest).1, some l) := by
      rw [← hl]
    have hsub := findCliff_sublist hfound
    have hlt := List.rel_of_pairwise_cons (hincreasing.sublist hsub) List.mem_cons_self
    rw [analyze_of_some hfound complete]
    exact ⟨⟨_, hsub.subset (by simp), rfl⟩, ⟨l, hsub.subset (by simp), rfl⟩, hlt⟩

end

/-! ## The levels of a run -/

theorem le_most_of_mem_doublings {most n x : Nat} (hn : n ≤ most) (hx : x ∈ doublings most n) :
    x ≤ most := by
  fun_induction doublings most n with
  | case1 n h ih =>
    cases hx with
    | head => exact hn
    | tail _ hx => exact ih (by omega) hx
  | case2 n h =>
    rw [List.mem_singleton.mp hx]
    exact hn

theorem le_of_mem_threadCounts {most : Int} {n : Nat} (hn : n ∈ threadCounts most) :
    (n : Int) ≤ most := by
  unfold threadCounts at hn
  split at hn
  · cases hn
  · next hmost =>
    have hle {x : Nat} (hx : x ∈ doublings most.toNat 1) :
        x ≤ most.toNat := le_most_of_mem_doublings (by omega) hx
    have hcount : n ≤ most.toNat := by
      dsimp only at hn
      split at hn
      · exact hle hn
      · rcases List.mem_append.mp hn with hdoubling | hlast
        · exact hle hdoubling
        · exact Nat.le_of_eq (List.mem_singleton.mp hlast)
    omega

/-- A run returns `analyze` of the levels before it and of some it has measured, for thread counts
in their order. -/
theorem runLevels_analyzes (c : Config) (w : Workload) (index : Nat) (done : List (Level Float))
    (rest : List Nat) :
    ∃ levels complete failure,
      (runLevels c w index done rest).1 = { analyze levels complete c.cliffDrop with failure } ∧
        levels.map Level.threads <+: done.map Level.threads ++ rest.map Int.ofNat := by
  induction rest generalizing index done with
  | nil =>
    refine ⟨done, true, none, ?_, ?_⟩
    · rw [← failure_analyze done true c.cliffDrop]
      rfl
    · exact List.prefix_append _ _
  | cons threads rest ih =>
    unfold runLevels
    split
    · -- a level that fails ends the run with the levels before it
      next f _ => exact ⟨done, false, some f.reason, rfl, List.prefix_append _ _⟩
    · next l hl =>
      have hthreads : (done ++ [l]).map Level.threads ++ rest.map Int.ofNat
          = done.map Level.threads ++ (threads :: rest).map Int.ofNat := by
        rw [List.map_append, List.append_assoc, List.map_singleton, threads_of_runLevel hl]
        rfl
      dsimp only
      split
      · -- a cliff ends the run too, with the level at which it was found
        refine ⟨done ++ [l], true, none, ?_, ?_⟩
        · rw [← failure_analyze (done ++ [l]) true c.cliffDrop]
        · rw [← hthreads]
          exact List.prefix_append _ _
      · obtain ⟨levels, complete, failure, hanalysis, hordered⟩ := ih (index + 1) (done ++ [l])
        exact ⟨levels, complete, failure, hanalysis, hthreads ▸ hordered⟩

/-- The optimum of a run is the number of threads of a level, and lies below the cliff, which is
within its limit. -/
theorem run_optimal_lt_cliff {c : Config} {w : Workload} {a : Analysis Float}
    {log : List Log.Entry} {k : Int} (hrun : run c w = .ok (a, log)) (hcliff : a.cliff = some k) :
    (∃ l ∈ a.levels, l.threads = a.optimal) ∧ a.optimal < k ∧ k ≤ c.maxThreads := by
  have ha : (runLevels c w 0 [] (threadCounts c.maxThreads)).1 = a := by
    unfold run at hrun
    split at hrun
    · cases hrun
    · rw [Except.ok.inj hrun]
  obtain ⟨levels, complete, failure, hanalysis, hordered⟩ :=
    runLevels_analyzes c w 0 [] (threadCounts c.maxThreads)
  rw [ha] at hanalysis
  subst hanalysis
  -- the thread counts increase, hence so do those of the levels, which are the first of them
  have hcounts : ((threadCounts c.maxThreads).map Int.ofNat).Pairwise (· < ·) :=
    List.Pairwise.map _ (fun _ _ => Int.ofNat_lt.mpr) (threadCounts_increasing c.maxThreads)
  have hincreasing : levels.Pairwise (·.threads < ·.threads) :=
    List.pairwise_map.mp (hcounts.sublist hordered.sublist)
  obtain ⟨hoptimal, ⟨l, hl, hk⟩, hlt⟩ := optimal_lt_cliff hincreasing hcliff
  refine ⟨?_, hlt, ?_⟩
  · show ∃ l ∈ (analyze levels complete c.cliffDrop).levels, _
    rw [levels_analyze]
    exact hoptimal
  · obtain ⟨n, hn, hthreads⟩ := List.mem_map.mp (hordered.subset (List.mem_map.mpr ⟨l, hl, rfl⟩))
    have hle := le_of_mem_threadCounts hn
    have hcast : Int.ofNat n = (n : Int) := rfl
    omega

end Profile

/-! ## The veto -/

namespace Veto

variable {α : Type} [LT α] [LE α] [DecidableLT α] [DecidableLE α]

/-- When a batch is vetoed for a cliff: it is large enough and promises enough speedup, and the
cliff is within reach (`cliffInReach`). -/
theorem reasonFor_eq_cliffDetected_iff (policy : Policy α) (items : Nat) (speedup : α)
    (beta : Estimate α) (cliff : Option Int) (threads : Int) :
    reasonFor policy items speedup beta cliff threads = .cliffDetected ↔
      policy.minItems ≤ items ∧ ¬speedup < policy.minSpeedup ∧
      cliffInReach cliff threads = true := by
  unfold reasonFor
  by_cases hitems : items < policy.minItems
  · rw [if_pos hitems]
    exact ⟨nofun, fun h => absurd hitems (Nat.not_lt.mpr h.1)⟩
  · rw [if_neg hitems]
    by_cases hspeedup : speedup < policy.minSpeedup
    · rw [if_pos hspeedup]
      exact ⟨nofun, fun h => absurd hspeedup h.2.1⟩
    · rw [if_neg hspeedup]
      by_cases hcliff : cliffInReach cliff threads = true
      · rw [if_pos hcliff]
        exact ⟨fun _ => ⟨Nat.not_lt.mp hitems, hspeedup, hcliff⟩, fun _ => rfl⟩
      · rw [if_neg hcliff]
        refine ⟨fun h => ?_, fun h => absurd h.2.2 hcliff⟩
        split at h <;> cases h

/-- A cliff is in reach of a pool that may have as many workers as it has threads. -/
theorem cliffInReach_some (k : Int) {threads : Int} (hthreads : 0 < threads) :
    cliffInReach (some k) threads = true ↔ k ≤ threads := by
  have hknown : ¬threads ≤ 0 := by omega
  simp [cliffInReach, hknown]

end Veto

/-! ## The pool of the probe -/

/-- The decision of a batch is that of the veto for the most workers that the pool may have. -/
theorem Simulation.decision_safeMap {α : Type} (s : Simulation α) (policy : Veto.Policy Float)
    (speedup : Option Float) (cliff : Option Int) (plan : Plan) (pause : Int)
    (bodies : List (Pool.Result α)) :
    (s.safeMap policy speedup cliff plan pause bodies).2.1 =
      Veto.decide policy bodies.length (speedup.getD (Veto.heuristicSpeedup bodies.length))
        (s.pool.window.estimate s.clock) cliff s.pool.config.maxWorkers := by
  rw [safeMap]
  cases hjudged : (s.judge policy bodies.length speedup cliff).2.approved <;>
    · simp only [hjudged]
      rfl

namespace Probe

/-- **A pool capped at the optimum stays below the cliff.** A profile returns an analysis for every
workload. If it is complete and has a cliff, the optimum is the number of threads of one of its
levels and less than the cliff, which is not beyond the most threads. So if the probe caps a usable
pool with `Probe.capped`, the veto finds the cliff exactly if the earlier rules let the batch pass
and the least number of workers reaches the cliff by itself, and it never does if that number is not
above the optimum. This is the decision that a batch in such a pool gets. -/
theorem capped_stays_below_cliff {c : Profile.Config} (hc : c.problem? = none)
    (w : Profile.Workload) :
    ∃ a log, Profile.run c w = .ok (a, log) ∧ ∀ k, a.complete = true → a.cliff = some k →
      (∃ l ∈ a.levels, l.threads = a.optimal) ∧ a.optimal < k ∧ k ≤ c.maxThreads ∧
      ∀ pool : Pool.Config, pool.problem? = none →
        (capped pool (some a)).maxWorkers = max pool.minWorkers a.optimal ∧
        (∀ (policy : Veto.Policy Float) (items : Nat) (speedup : Float) (beta : Estimate Float),
          let d := Veto.decide policy items speedup beta a.cliff (capped pool (some a)).maxWorkers
          (d.reason = .cliffDetected ↔
            policy.minItems ≤ items ∧ ¬speedup < policy.minSpeedup ∧ k ≤ pool.minWorkers) ∧
          (pool.minWorkers ≤ a.optimal → d.reason ≠ .cliffDetected)) ∧
        ∀ (α : Type) (s : Simulation α), s.pool.config = capped pool (some a) →
          ∀ policy speedup plan pause bodies,
          (s.safeMap policy speedup a.cliff plan pause bodies).2.1 =
            Veto.decide policy bodies.length (speedup.getD (Veto.heuristicSpeedup bodies.length))
              (s.pool.window.estimate s.clock) a.cliff (capped pool (some a)).maxWorkers := by
  obtain ⟨a, log, hrun⟩ : ∃ a log, Profile.run c w = .ok (a, log) :=
    ⟨_, _, Profile.run_of_usable ((Profile.Config.problem?_eq_none_iff c).mp hc) w⟩
  refine ⟨a, log, hrun, fun k hcomplete hcliff => ?_⟩
  obtain ⟨hlevel, hlt, hmost⟩ := Profile.run_optimal_lt_cliff hrun hcliff
  refine ⟨hlevel, hlt, hmost, fun pool hpool => ?_⟩
  have hcapped : (capped pool (some a)).maxWorkers = max pool.minWorkers a.optimal := by
    simp only [capped, hcomplete, if_true]
  have hmin : 1 ≤ pool.minWorkers := ((Pool.Config.problem?_eq_none_iff pool).mp hpool).minWorkers
  -- the optimum is below the cliff, so of the two numbers only the least number of workers can
  -- reach it
  have hreach : Veto.cliffInReach a.cliff (capped pool (some a)).maxWorkers = true ↔
      k ≤ pool.minWorkers := by
    rw [hcliff, hcapped, Veto.cliffInReach_some k (by omega)]
    omega
  refine ⟨hcapped, fun policy items speedup beta =>
    ?_, fun α s hconfig policy speedup plan pause bodies => ?_⟩
  · have hiff := Veto.reasonFor_eq_cliffDetected_iff policy items speedup beta a.cliff
      (capped pool (some a)).maxWorkers
    rw [hreach] at hiff
    refine ⟨hiff, fun hle hdetected => ?_⟩
    have := (hiff.mp hdetected).2.2
    omega
  · rw [← hconfig]
    exact s.decision_safeMap policy speedup a.cliff plan pause bodies

/-- Calls take as long with two threads as with one, and much longer with four. -/
def crowded : Profile.Workload := fun level _ _ => .takes (if level < 2 then 250000 else 4000000)

/-- Two threads are best and four are a cliff. A pool of at least one worker is not vetoed for it,
one of at least four is. -/
theorem capped_stays_below_cliff_crowded :
    Profile.Config.problem? { maxThreads := 4, durationMs := 1 } = none ∧
    ∃ a log, Profile.run { maxThreads := 4, durationMs := 1 } crowded = .ok (a, log) ∧
      a.complete = true ∧
      a.optimal = 2 ∧ a.cliff = some 4 ∧
      (capped { minWorkers := 1, maxWorkers := 8 } (some a)).maxWorkers = 2 ∧
      (Veto.decide .default 100 2.0 ⟨0.0, 0, 0, false⟩ a.cliff
        (capped { minWorkers := 1, maxWorkers := 8 } (some a)).maxWorkers).reason ≠ .cliffDetected ∧
      (Veto.decide .default 100 2.0 ⟨0.0, 0, 0, false⟩ a.cliff
        (capped { minWorkers := 4, maxWorkers := 8 } (some a)).maxWorkers).reason =
          .cliffDetected := by
  have hvalid : Profile.Config.problem? { maxThreads := 4, durationMs := 1 } = none := by decide
  have hcounts : Profile.threadCounts 4 = [1, 2, 4] := by
    simp [Profile.threadCounts, Profile.doublings]
  have hlevels : ∀ a log, Profile.run { maxThreads := 4, durationMs := 1 } crowded = .ok (a, log) →
      a.complete = true ∧ a.optimal = 2 ∧ a.cliff = some 4 := by
    intro a log hrun
    unfold Profile.run at hrun
    rw [hvalid] at hrun
    dsimp only at hrun
    rw [hcounts] at hrun
    have ha :
        (Profile.runLevels { maxThreads := 4, durationMs := 1 } crowded 0 [] [1, 2, 4]).1 = a :=
      congrArg Prod.fst (Except.ok.inj hrun)
    rw [← ha]
    decide +kernel
  obtain ⟨a, log, hrun, hbelow⟩ := capped_stays_below_cliff hvalid crowded
  obtain ⟨hcomplete, hoptimal, hcliff⟩ := hlevels a log hrun
  obtain ⟨_, _, _, hpools⟩ := hbelow 4 hcomplete hcliff
  obtain ⟨hcapped, hsmall, _⟩ := hpools { minWorkers := 1, maxWorkers := 8 } (by decide)
  obtain ⟨_, hlarge, _⟩ := hpools { minWorkers := 4, maxWorkers := 8 } (by decide)
  refine ⟨hvalid, a, log, hrun, hcomplete, hoptimal, hcliff, ?_, ?_, ?_⟩
  · rw [hcapped, hoptimal]
    rfl
  · refine (hsmall .default 100 2.0 ⟨0.0, 0, 0, false⟩).2 ?_
    rw [hoptimal]
    decide
  · exact (hlarge .default 100 2.0 ⟨0.0, 0, 0, false⟩).1.mpr ⟨by decide, by decide, by decide⟩

end Probe

end Headroom
