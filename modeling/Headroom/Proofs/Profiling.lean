import Headroom.Proofs.Cliffs
import Headroom.Proofs.Levels
import Headroom.Proofs.Usability
import Mathlib.Algebra.Group.Int.Defs

/-!
# Profiling runs

A run measures its levels in order. It ends at a level in which a call raises a fault, at a cliff if
it is to stop there, or after the last level; `Ends` says what it returns in each case, and
`ends_runLevels` that there is no other. A run that stops at a cliff looks at every prefix of its
levels, a run that does not looks at them once. They agree because what follows a cliff has no
influence on the analysis: the first returns what the second returns, cut after the level of the
cliff (`Ends.cut`).
-/

namespace Headroom.Profile

/-- A time of a level that fits into a word of 64 bits is measured in full. -/
theorem Config.span_eq {c : Config} (hc : c.problem? = none)
    (hspan : c.durationMs * 1000000 < 2 ^ 63) :
    c.span = c.durationMs * 1000000 :=
  ofMilliseconds_of_lt (Int.le_of_lt ((problem?_eq_none_iff c).mp hc).duration) hspan

/-- Every call takes time, unless it raises a fault, in every thread of every level. -/
def Workload.Positive (w : Workload) : Prop := ∀ level thread, Profile.Positive (w level thread)

section
variable (c : Config) (w : Workload)

/-- What is measured at a level; nothing if a call raises a fault there, or if there is no such
level. -/
def measured? (i : Nat) : Option (Level Float) :=
  (threadCounts c.maxThreads)[i]?.bind fun n => (runLevel (w i) n c.span c.reservoir).toOption

/-- What is measured at the first `k` levels. -/
def firstLevels (k : Nat) : List (Level Float) := (List.range k).filterMap (measured? c w)

/-- A thread of level `i` gets to a call that raises the fault `f`. -/
def RaisesAt (i : Nat) (f : Fault) : Prop :=
  ∃ n, (threadCounts c.maxThreads)[i]? = some n ∧ ∃ thread < n, Raises (w i thread) c.span f

/-- No call of the first `k` levels raises a fault, and there are as many levels. -/
structure Quiet (k : Nat) : Prop where
  le_length : k ≤ (threadCounts c.maxThreads).length
  not_raises : ∀ j < k, ∀ f, ¬RaisesAt c w j f

/-- A run gets to level `i`: all levels before it are quiet, and none of them made it stop. -/
structure Reaches (i : Nat) : Prop where
  quiet : Quiet c w i
  /-- The levels before show no cliff, if a cliff ends the run. -/
  level : c.stopAtCliff = true → (analyze (firstLevels c w i) true c.cliffDrop).cliff = none

/-- How a run ends, and what it returns: after its last level, at a cliff where it is told to stop,
or with a fault. -/
inductive Ends : Analysis Float → Prop
  | failed {i n : Nat} {f : Fault} (hreaches : Reaches c w i)
      (hcount : (threadCounts c.maxThreads)[i]? = some n) (hraises : RaisesAt c w i f)
      (hlevel : runLevel (w i) n c.span c.reservoir = .error f) :
      Ends { analyze (firstLevels c w i) false c.cliffDrop with failure := some f.reason }
  | stopped {i : Nat} {l : Level Float} {k : Int} (hreaches : Reaches c w i)
      (hlevel : measured? c w i = some l) (hquiet : ∀ f, ¬RaisesAt c w i f)
      (hstop : c.stopAtCliff = true)
      (hcliff : (analyze (firstLevels c w (i + 1)) true c.cliffDrop).cliff = some k) :
      Ends (analyze (firstLevels c w (i + 1)) true c.cliffDrop)
  | finished (hreaches : Reaches c w (threadCounts c.maxThreads).length) :
      Ends (analyze (firstLevels c w (threadCounts c.maxThreads).length) true c.cliffDrop)

end

section
variable {c : Config} {w : Workload}

/-! ### The first levels -/

/-- A level is measured, or one of the faults that its threads get to is raised (`RaisesAt`). There
is no third outcome. -/
theorem level_cases (hw : w.Positive) {i n : Nat}
    (hcount : (threadCounts c.maxThreads)[i]? = some n) :
    (∃ l, runLevel (w i) n c.span c.reservoir = .ok l ∧ measured? c w i = some l ∧ l.threads = n ∧
      ∀ f, ¬RaisesAt c w i f) ∨
    ∃ f, runLevel (w i) n c.span c.reservoir = .error f ∧ RaisesAt c w i f := by
  rcases runLevel_cases (hw i) n c.span c.reservoir with ⟨l, hl, hthreads, hquiet⟩ | ⟨f, hf, thread,
    hlt, hraises⟩
  · refine .inl ⟨l, hl, ?_, hthreads, ?_⟩
    · unfold measured?
      rw [hcount, Option.bind_some, hl]
      rfl
    · rintro f ⟨n', hcount', thread, hlt, hraises⟩
      rw [hcount] at hcount'
      cases hcount'
      exact hquiet thread hlt f hraises
  · exact .inr ⟨f, hf, n, hcount, thread, hlt, hraises⟩

/-- A level without a fault is measured, with its own number of threads. -/
theorem measured_of_quiet (hw : w.Positive) {i n : Nat}
    (hcount : (threadCounts c.maxThreads)[i]? = some n) (hquiet : ∀ f, ¬RaisesAt c w i f) :
    ∃ l, measured? c w i = some l ∧ l.threads = n := by
  rcases level_cases hw hcount with ⟨l, -, hl, hthreads, -⟩ | ⟨f, -, hraises⟩
  · exact ⟨l, hl, hthreads⟩
  · exact absurd hraises (hquiet f)

theorem count_of_measured {i : Nat} {l : Level Float} (h : measured? c w i = some l) :
    i < (threadCounts c.maxThreads).length := by
  obtain ⟨n, hn, -⟩ := Option.bind_eq_some_iff.mp h
  exact (List.getElem?_eq_some_iff.mp hn).1

theorem RaisesAt.lt_length {i : Nat} {f : Fault} (h : RaisesAt c w i f) :
    i < (threadCounts c.maxThreads).length := by
  obtain ⟨n, hn, -⟩ := h
  exact (List.getElem?_eq_some_iff.mp hn).1

theorem Quiet.mono {i k : Nat} (h : Quiet c w k) (hik : i ≤ k) : Quiet c w i := by
  have hle := h.le_length
  exact ⟨by omega, fun j hj => h.not_raises j (by omega)⟩

theorem Quiet.succ {k : Nat} (h : Quiet c w k) (hk : k < (threadCounts c.maxThreads).length)
    (hquiet : ∀ f, ¬RaisesAt c w k f) : Quiet c w (k + 1) := by
  refine ⟨hk, ?_⟩
  intro j hj
  rcases Nat.lt_or_eq_of_le (Nat.le_of_lt_succ hj) with hlt | rfl
  · exact h.not_raises j hlt
  · exact hquiet

theorem firstLevels_succ {i : Nat} {l : Level Float} (h : measured? c w i = some l) :
    firstLevels c w (i + 1) = firstLevels c w i ++ [l] := by
  unfold firstLevels
  rw [List.range_succ, List.filterMap_append, List.filterMap_cons_some h]
  rfl

theorem firstLevels_mono {i j : Nat} (h : i ≤ j) : firstLevels c w i <+: firstLevels c w j := by
  obtain ⟨d, rfl⟩ := Nat.exists_eq_add_of_le h
  unfold firstLevels
  rw [List.range_add, List.filterMap_append]
  exact List.prefix_append _ _

theorem threads_firstLevels (hw : w.Positive) {k : Nat} (hquiet : Quiet c w k) :
    (firstLevels c w k).map Level.threads = ((threadCounts c.maxThreads).take k).map Int.ofNat := by
  induction k with
  | zero => rfl
  | succ k ih =>
    have hk : k < (threadCounts c.maxThreads).length := hquiet.le_length
    have hcount : (threadCounts c.maxThreads)[k]? = some (threadCounts c.maxThreads)[k] :=
      List.getElem?_eq_getElem hk
    obtain ⟨l, hl, hthreads⟩ :=
      measured_of_quiet hw hcount (hquiet.not_raises k (Nat.lt_succ_self k))
    rw [firstLevels_succ hl, List.take_add_one, hcount, List.map_append, List.map_append,
      ih (hquiet.mono (Nat.le_succ k))]
    show _ ++ [l.threads] = _ ++ [((threadCounts c.maxThreads)[k] : Int)]
    rw [hthreads]

theorem length_firstLevels (hw : w.Positive) {k : Nat} (hquiet : Quiet c w k) :
    (firstLevels c w k).length = k := by
  have hlength := congrArg List.length (threads_firstLevels hw hquiet)
  rw [List.length_map, List.length_map, List.length_take, Nat.min_eq_left hquiet.le_length]
    at hlength
  exact hlength

theorem getElem?_firstLevels (hw : w.Positive) {j k : Nat} (hquiet : Quiet c w k) (hj : j < k) :
    (firstLevels c w k)[j]? = measured? c w j := by
  have hbound : j < (threadCounts c.maxThreads).length := Nat.lt_of_lt_of_le hj hquiet.le_length
  obtain ⟨l, hl, -⟩ := measured_of_quiet hw (List.getElem?_eq_getElem hbound)
    (hquiet.not_raises j hj)
  obtain ⟨rest, hrest⟩ := firstLevels_mono (c := c) (w := w) hj
  have hlength := length_firstLevels hw (hquiet.mono (Nat.le_of_lt hj))
  rw [← hrest, firstLevels_succ hl, hl, List.append_assoc, List.getElem?_append_right (by omega),
    hlength, Nat.sub_self]
  rfl

/-- What was measured first does not depend on how far the run goes. -/
theorem firstLevels_take (hw : w.Positive) {i k : Nat} (hquiet : Quiet c w k) (hik : i ≤ k) :
    (firstLevels c w k).take i = firstLevels c w i := by
  have hlength := length_firstLevels hw (hquiet.mono hik)
  have htake := List.prefix_iff_eq_take.mp (firstLevels_mono (c := c) (w := w) hik)
  rw [hlength] at htake
  exact htake.symm

/-! ### How a run ends -/

/-- The levels in front of the remaining ones are measured; each step moves one over. By induction
on the remaining thread counts, with `before` generalised. -/
theorem ends_runLevels (hw : w.Positive) (before rest : List Nat)
    (hcounts : threadCounts c.maxThreads = before ++ rest) (hreaches : Reaches c w before.length) :
    Ends c w (runLevels c w before.length (firstLevels c w before.length) rest).1 := by
  induction rest generalizing before with
  | nil =>
    have hlength : before.length = (threadCounts c.maxThreads).length := by
      rw [hcounts, List.append_nil]
    rw [hlength] at hreaches ⊢
    exact .finished hreaches
  | cons n rest ih =>
    have hcount : (threadCounts c.maxThreads)[before.length]? = some n := by
      rw [hcounts, List.getElem?_append_right (Nat.le_refl _), Nat.sub_self]
      rfl
    unfold runLevels
    -- the level is measured or fails; a measured one may be the last, if it shows a cliff
    rcases level_cases hw hcount with ⟨l, hrun, hl, -, hquiet⟩ | ⟨f, hrun, hraises⟩
    · rw [hrun]
      dsimp only
      rw [← firstLevels_succ hl]
      split
      · next hstop =>
        rw [Bool.and_eq_true, Option.isSome_iff_exists] at hstop
        obtain ⟨hstop, k, hk⟩ := hstop
        exact .stopped hreaches hl hquiet hstop hk
      · next hgo =>
        have hlength : before.length + 1 = (before ++ [n]).length := by rw [List.length_append]; rfl
        -- the run goes on, so the levels up to this one show no cliff if that would end it
        have hnext : Reaches c w (before.length + 1) := by
          refine ⟨hreaches.quiet.succ (count_of_measured hl) hquiet, ?_⟩
          intro hstop
          rw [hstop, Bool.true_and, Bool.not_eq_true, Option.isSome_eq_false_iff,
            Option.isNone_iff_eq_none] at hgo
          exact hgo
        rw [hlength] at hnext ⊢
        exact ih (before ++ [n]) (by rw [hcounts, List.append_assoc]; rfl) hnext
    · rw [hrun]
      exact .failed hreaches hcount hraises hrun

/-- A run with a usable configuration ends, and as `Ends` says. -/
theorem ends_run (hc : c.problem? = none) (hw : w.Positive) :
    ∃ a log, run c w = .ok (a, log) ∧ Ends c w a := by
  have hfirst : Reaches c w 0 :=
    ⟨⟨Nat.zero_le _, fun j hj => absurd hj (Nat.not_lt_zero j)⟩, fun _ => rfl⟩
  refine ⟨(runLevels c w 0 [] (threadCounts c.maxThreads)).1,
    (runLevels c w 0 [] (threadCounts c.maxThreads)).2, ?_,
    ends_runLevels hw [] (threadCounts c.maxThreads) rfl hfirst⟩
  unfold run
  rw [hc]

/-! ### What a run returns -/

namespace Ends

variable {a : Analysis Float}

/-- A run returns the analysis of its `firstLevels`. It is cut short by a fault or at a
cliff only. -/
theorem covers (h : Ends c w a) :
    ∃ k, Quiet c w k ∧
      (∃ complete failure, a = { analyze (firstLevels c w k) complete c.cliffDrop with failure }) ∧
      (c.stopAtCliff = false → k = (threadCounts c.maxThreads).length ∨ ∃ f, RaisesAt c w k f) := by
  cases h with
  | @failed i _ f hreaches _ hraises _ =>
    exact ⟨i, hreaches.quiet, ⟨_, _, rfl⟩, fun _ => .inr ⟨f, hraises⟩⟩
  | @stopped i l k hreaches hlevel hquiet hstop _ =>
    refine ⟨i + 1, hreaches.quiet.succ (count_of_measured hlevel) hquiet, ⟨true, none, ?_⟩, ?_⟩
    · rw [← failure_analyze (firstLevels c w (i + 1)) true c.cliffDrop]
    · intro hplain
      rw [hstop] at hplain
      cases hplain
  | finished hreaches =>
    refine ⟨_, hreaches.quiet, ⟨true, none, ?_⟩, fun _ => .inl rfl⟩
    rw [← failure_analyze (firstLevels c w (threadCounts c.maxThreads).length) true c.cliffDrop]

/-- The levels of a run have the first of the `threadCounts`, in order. -/
theorem levels_in_order (hw : w.Positive) (h : Ends c w a) :
    a.levels.map Level.threads <+: (threadCounts c.maxThreads).map Int.ofNat := by
  obtain ⟨k, hquiet, ⟨complete, failure, rfl⟩, -⟩ := h.covers
  show (analyze (firstLevels c w k) complete c.cliffDrop).levels.map Level.threads <+: _
  rw [levels_analyze, threads_firstLevels hw hquiet, List.map_take]
  exact List.take_prefix k _

theorem threads_increasing (hw : w.Positive) (h : Ends c w a) :
    a.levels.Pairwise (·.threads < ·.threads) := by
  have hcounts : ((threadCounts c.maxThreads).map Int.ofNat).Pairwise (· < ·) :=
    List.Pairwise.map _ (fun _ _ => Int.ofNat_lt.mpr) (threadCounts_increasing c.maxThreads)
  exact List.pairwise_map.mp (hcounts.sublist (h.levels_in_order hw).sublist)

theorem index_eq (hw : w.Positive) (h : Ends c w a) {i j : Nat} {l m : Level Float}
    (hl : a.levels[i]? = some l) (hm : a.levels[j]? = some m) (hthreads : l.threads = m.threads) :
    i = j := by
  obtain ⟨hi, rfl⟩ := List.getElem?_eq_some_iff.mp hl
  obtain ⟨hj, rfl⟩ := List.getElem?_eq_some_iff.mp hm
  have hlt := List.pairwise_iff_getElem.mp (h.threads_increasing hw)
  rcases Nat.lt_trichotomy i j with h | h | h
  · have := hlt i j hi hj h
    omega
  · exact h
  · have := hlt j i hj hi h
    omega

/-- A run that gets to a level (`Reaches`) in which a call raises a fault ends there, with the
analysis of the levels before it and one of the faults of that level. -/
theorem interrupted (h : Ends c w a) {i : Nat} {f : Fault} (hreaches : Reaches c w i)
    (hraises : RaisesAt c w i f) :
    ∃ g, RaisesAt c w i g ∧
      a = { analyze (firstLevels c w i) false c.cliffDrop with failure := some g.reason } := by
  cases h with
  | @failed i' _ g hreaches' _ hraises' _ =>
    rcases Nat.lt_trichotomy i i' with hlt | rfl | hlt
    · exact absurd hraises (hreaches'.quiet.not_raises i hlt f)
    · exact ⟨g, hraises', rfl⟩
    · exact absurd hraises' (hreaches.quiet.not_raises i' hlt g)
  | @stopped i' _ _ hreaches' _ hquiet hstop hcliff =>
    rcases Nat.lt_trichotomy i i' with hlt | rfl | hlt
    · exact absurd hraises (hreaches'.quiet.not_raises i hlt f)
    · exact absurd hraises (hquiet f)
    · -- the cliff stands in the levels before this one, so the run did not get here
      obtain ⟨rest, hrest⟩ := firstLevels_mono (c := c) (w := w) (Nat.succ_le_of_lt hlt)
      have hnone := hreaches.level hstop
      rw [← hrest] at hnone
      rw [cliff_eq_none_of_append hnone] at hcliff
      cases hcliff
  | finished hreaches' => exact absurd hraises (hreaches'.quiet.not_raises i hraises.lt_length f)

/-- A run that is neither interrupted nor told to stop covers all levels. -/
theorem whole (h : Ends c w a) (hquiet : ∀ i f, ¬RaisesAt c w i f)
    (hplain : c.stopAtCliff = false) :
    a = analyze (firstLevels c w (threadCounts c.maxThreads).length) true c.cliffDrop := by
  cases h with
  | failed _ _ hraises _ => exact absurd hraises (hquiet _ _)
  | stopped _ _ _ hstop _ =>
    rw [hplain] at hstop
    cases hstop
  | finished _ => rfl

/-- A run that stops at a cliff returns what the plain run returns, cut after the level of the
cliff. What the plain run measures after that has no influence on the cliff, by `analyze_append`. -/
theorem cut {plain stop : Analysis Float} (hw : w.Positive)
    (hplain : Ends { c with stopAtCliff := false } w plain)
    (hstop : Ends { c with stopAtCliff := true } w stop) :
    (plain.cliff = none ∧ stop = plain) ∨
    ∃ i l, plain.levels[i]? = some l ∧ plain.cliff = some l.threads ∧
      stop =
        { plain with levels := plain.levels.take (i + 1), complete := true, failure := none } := by
  cases hstop with
  | @failed i n f hreaches hcount hraises hlevel =>
    -- a fault ends both runs, and at the same level: neither goes past a level with a fault
    refine .inl ?_
    cases hplain with
    | @failed i' n' f' hreaches' hcount' hraises' hlevel' =>
      rcases Nat.lt_trichotomy i i' with hlt | rfl | hlt
      · exact absurd hraises (hreaches'.quiet.not_raises i hlt f)
      · have hn : some n = some n' := hcount.symm.trans hcount'
        cases hn
        have hf : Except.error f = Except.error f' := hlevel.symm.trans hlevel'
        cases hf
        exact ⟨(cliff_analyze_congr _ false true _).trans (hreaches.level rfl), rfl⟩
      · exact absurd hraises' (hreaches.quiet.not_raises i' hlt f')
    | stopped _ _ _ hplain _ => cases hplain
    | finished hreaches' => exact absurd hraises (hreaches'.quiet.not_raises i hraises.lt_length f)
  | @stopped i l k hreaches hlevel hquiet _ hcliff =>
    -- the other run goes on after the cliff, so it has all levels of this one
    obtain ⟨n, ⟨hn, hbefore⟩, ⟨complete, failure, rfl⟩, hend⟩ := hplain.covers
    have hfirst : Quiet c w n := ⟨hn, hbefore⟩
    have hin : i + 1 ≤ n := by
      rcases hend rfl with rfl | ⟨f, hraises⟩
      · exact count_of_measured hlevel
      · rcases Nat.lt_trichotomy n i with hlt | rfl | hlt
        · exact absurd hraises (hreaches.quiet.not_raises n hlt f)
        · exact absurd hraises (hquiet f)
        · exact hlt
    obtain ⟨rest, hrest⟩ := firstLevels_mono (c := c) (w := w) hin
    -- levels after the cliff do not change what is said about it
    have hanalysis : analyze (firstLevels c w n) complete c.cliffDrop =
        { analyze (firstLevels c w (i + 1)) true c.cliffDrop with
          levels := firstLevels c w n, complete } := by
      rw [← hrest]
      exact analyze_append hcliff rest complete
    have hlast : k = l.threads := by
      rw [firstLevels_succ hlevel] at hcliff
      exact cliff_concat (hreaches.level rfl) hcliff
    have htake : (firstLevels c w n).take (i + 1) = firstLevels c w (i + 1) :=
      firstLevels_take hw hfirst hin
    refine .inr ⟨i, l, ?_, ?_, ?_⟩
    · show (analyze (firstLevels c w n) complete c.cliffDrop).levels[i]? = some l
      rw [levels_analyze]
      exact (getElem?_firstLevels hw hfirst hin).trans hlevel
    · show (analyze (firstLevels c w n) complete c.cliffDrop).cliff = some l.threads
      rw [hanalysis, ← hlast]
      exact hcliff
    · show analyze (firstLevels c w (i + 1)) true c.cliffDrop =
        { analyze (firstLevels c w n) complete c.cliffDrop with
          levels := (analyze (firstLevels c w n) complete c.cliffDrop).levels.take (i + 1)
          complete := true
          failure := none }
      rw [levels_analyze, htake, hanalysis]
      exact (analyze_eta _ _ _).symm
  | finished hreaches =>
    -- no fault and no cliff: both runs measure all levels
    refine .inl ?_
    cases hplain with
    | failed _ _ hraises _ => exact absurd hraises (hreaches.quiet.not_raises _ hraises.lt_length _)
    | stopped _ _ _ hplain _ => cases hplain
    | finished _ => exact ⟨hreaches.level rfl, rfl⟩

end Ends

end

/-- **What a run covers.** The configuration is usable, the time of a level fits into a word of
64 bits, and every call takes at least a nanosecond. A run measures each level for the time that
the configuration says, and returns the levels that it finished, for thread counts in their
order. If it gets to a level (`Reaches`) in which a call raises a fault (`RaisesAt`), these are
the levels before, and the fault of one of its threads is named; without any fault they are all
levels. A run that is to stop at a cliff returns what it would return otherwise, cut after the
level of the cliff. -/
theorem run_covers_levels (c : Config) (w : Workload) (hc : c.problem? = none)
    (hspan : c.durationMs * 1000000 < 2 ^ 63) (hw : w.Positive) :
    c.span = c.durationMs * 1000000 ∧
    (∃ a log, run c w = .ok (a, log) ∧
      a.levels.map Level.threads <+: (threadCounts c.maxThreads).map Int.ofNat ∧
      (∀ i f, Reaches c w i → RaisesAt c w i f →
        a.complete = false ∧ a.levels.length = i ∧ (∀ j < i, a.levels[j]? = measured? c w j) ∧
        ∃ g, RaisesAt c w i g ∧
          a = { analyze a.levels false c.cliffDrop with failure := some g.reason }) ∧
      ((∀ i f, ¬RaisesAt c w i f) → c.stopAtCliff = false →
        a.levels.map Level.threads = (threadCounts c.maxThreads).map Int.ofNat ∧
        a.complete = true ∧ a.failure = none)) ∧
    ∃ (plain stop : Analysis Float) (log log' : List Log.Entry),
      run { c with stopAtCliff := false } w = .ok (plain, log) ∧
      run { c with stopAtCliff := true } w = .ok (stop, log') ∧
      (plain.cliff = none → stop = plain) ∧
      ∀ k, plain.cliff = some k →
        (∃ (i : Nat) (l : Level Float), plain.levels[i]? = some l ∧ l.threads = k) ∧
        ∀ (i : Nat) (l : Level Float), plain.levels[i]? = some l → l.threads = k →
          stop =
            { plain with
              levels := plain.levels.take (i + 1), complete := true, failure := none } := by
  refine ⟨c.span_eq hc hspan, ?_, ?_⟩
  · obtain ⟨a, log, hrun, hends⟩ := ends_run hc hw
    refine ⟨a, log, hrun, hends.levels_in_order hw, ?_, ?_⟩
    · intro i f hreaches hraises
      obtain ⟨g, hg, rfl⟩ := hends.interrupted hreaches hraises
      have hlevels : ∀ failure, Analysis.levels
          { analyze (firstLevels c w i) false c.cliffDrop with failure }
            = firstLevels c w i := fun _ => levels_analyze _ _ _
      rw [hlevels]
      exact ⟨complete_analyze _ _ _, length_firstLevels hw hreaches.quiet,
        fun j hj => getElem?_firstLevels hw hreaches.quiet hj, g, hg, rfl⟩
    · intro hquiet hplain
      rw [hends.whole hquiet hplain, levels_analyze,
        threads_firstLevels hw ⟨Nat.le_refl _, fun j _ => hquiet j⟩, List.take_length]
      exact ⟨rfl, complete_analyze _ _ _, failure_analyze _ _ _⟩
  · obtain ⟨plain, log, hrun, hplain⟩ := ends_run (c := { c with stopAtCliff := false }) hc hw
    obtain ⟨stop, log', hrun', hstop⟩ := ends_run (c := { c with stopAtCliff := true }) hc hw
    refine ⟨plain, stop, log, log', hrun, hrun', ?_⟩
    -- the cliff is at one level only, since all have different thread counts
    rcases hplain.cut hw hstop with ⟨hnone, heq⟩ | ⟨i, l, hl, hcliff, heq⟩
    · refine ⟨fun _ => heq, ?_⟩
      intro k hk
      rw [hnone] at hk
      cases hk
    · refine ⟨?_, ?_⟩
      · intro hnone
        rw [hcliff] at hnone
        cases hnone
      · intro k hk
        rw [hcliff] at hk
        cases hk
        refine ⟨⟨i, l, hl, rfl⟩, ?_⟩
        intro i' l' hl' hthreads
        rw [heq, hplain.index_eq hw hl' hl hthreads]

/-- A thread of the third level raises a fault with its second call. -/
def breaking : Workload := fun level thread number =>
  if level = 2 ∧ thread = 1 ∧ number = 1 then .raises (.raised .runtime (text "no more"))
    else .takes 700000

theorem breaking_raises {level thread number : Nat} {f : Fault}
    (h : breaking level thread number = .raises f) :
    level = 2 ∧ f = .raised .runtime (text "no more") := by
  unfold breaking at h
  split at h
  · next hcall =>
    cases h
    exact ⟨hcall.1, rfl⟩
  · cases h

theorem breaking_positive : breaking.Positive := by
  intro level thread number time h
  unfold breaking at h
  split at h
  · cases h
  · cases h
    decide

theorem run_covers_levels_breaking :
    Config.problem? { maxThreads := 4, durationMs := 1 } = none ∧ breaking.Positive ∧
    ∃ a log, run { maxThreads := 4, durationMs := 1 } breaking = .ok (a, log) ∧ a.complete = false ∧
      a.failure = some (text "no more") ∧ a.levels.map Level.threads = [1, 2] := by
  have hvalid : Config.problem? { maxThreads := 4, durationMs := 1 } = none := by decide
  refine ⟨hvalid, breaking_positive, ?_⟩
  have hcounts : threadCounts 4 = [1, 2, 4] := by simp [threadCounts, doublings]
  obtain ⟨hspan, ⟨a, log, hrun, hprefix, hbreak, -⟩, -⟩ :=
    run_covers_levels _ _ hvalid (by decide) breaking_positive
  have hreaches : Reaches { maxThreads := 4, durationMs := 1 } breaking 2 := by
    refine ⟨⟨by rw [hcounts]; decide, ?_⟩, by intro h; cases h⟩
    rintro j hj f ⟨_, _, thread, _, number, _, hraises⟩
    have := (breaking_raises hraises).1
    omega
  have hraises : RaisesAt { maxThreads := 4, durationMs := 1 } breaking 2
    (.raised .runtime (text "no more")) := by
    exact ⟨4, by rw [hcounts]; rfl, 1, by decide, 1, ⟨700000, rfl, by rw [hspan]; decide⟩, rfl⟩
  obtain ⟨hincomplete, hlength, -, g, ⟨_, _, _, _, _, _, hg⟩, ha⟩ := hbreak 2 _ hreaches hraises
  refine ⟨a, log, hrun, hincomplete, ?_, ?_⟩
  · rw [ha, (breaking_raises hg).2]
    show some (Fault.reason (.raised .runtime (text "no more"))) = some (text "no more")
    decide
  · have htake := List.prefix_iff_eq_take.mp hprefix
    rw [List.length_map, hlength, hcounts] at htake
    exact htake

end Headroom.Profile
