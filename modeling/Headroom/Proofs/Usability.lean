import Headroom.Probe
import Mathlib.Logic.Basic
import Mathlib.Tactic.MkIffOfInductiveProp

/-!
# Usable settings

What the checks of the configurations let through, as bounds on the values. Each check names the
first problem that it finds; `check_eq_none` takes such a chain of questions apart, so that every
check comes down to the bounds it asks for.

* **`Pool.Config.problem?_eq_none_iff`**, and the same for profiles, policies and windows: a check
  finds nothing exactly if all bounds hold.
* **`Pool.ofConfig_of_usable`**: the window and the mailbox of a pool have nothing to add to the
  check of the pool.
* **`Usable.builds`**: pools and profiling runs can be made from usable settings, and
* **`Usable.adapted`**: settings stay usable when the probe puts its own values in.
-/

namespace Headroom

/-! ## Checks and bounds -/

/-- A chain of questions finds no problem if the first one does not and the others do not. -/
theorem check_eq_none {p : Prop} [Decidable p] {found : Problem} {rest : Option Problem} :
    (if p then some found else rest) = none ↔ ¬p ∧ rest = none := by
  by_cases hp : p
  · simp [hp]
  · simp [hp]

/-- Settings that a pool can be made from. The fields are what the program asks, in the order in
which it asks. -/
@[mk_iff]
structure Pool.Config.Usable (c : Pool.Config) : Prop where
  minWorkers : 1 ≤ c.minWorkers
  maxWorkers : c.minWorkers ≤ c.maxWorkers
  blockingThreshold : 0.0 < c.blockingThreshold ∧ c.blockingThreshold < 1.0
  monitorInterval : 0 < c.monitorIntervalMs
  hysteresisTicks : 1 ≤ c.hysteresisTicks
  mailboxCapacity : 1 ≤ c.mailboxCapacity
  minSamples : 1 ≤ c.window.minSamples ∧ c.window.minSamples ≤ c.window.capacity
  maxAge : 0 ≤ c.window.maxAgeMs

/-- Settings that a profiling run can be made from. `Profile.run` refuses all others. -/
@[mk_iff]
structure Profile.Config.Usable (c : Profile.Config) : Prop where
  maxThreads : 1 ≤ c.maxThreads
  duration : 0 < c.durationMs
  cliffDrop : 0.0 < c.cliffDrop ∧ c.cliffDrop < 1.0
  reservoir : 1 ≤ c.reservoir

/-- Limits that an approval can be asked for with. Those that are doubles have to be numbers, which
the comparisons require by themselves. -/
structure Veto.Policy.Usable (p : Veto.Policy Float) : Prop where
  minSpeedup : 0.0 < p.minSpeedup
  contentionBeta : ∀ limit, p.contentionBeta = some limit → 0.0 < limit ∧ limit ≤ 1.0

/-- Settings all parts of which are usable: those of the pool, of the profile and of the veto. -/
structure Settings.Usable (s : Settings) : Prop where
  pool : s.pool.Usable
  profiler : s.profiler.Usable
  veto : s.veto.Usable

/-- No problem is found exactly in settings that are usable, so `Usable` and the chain of questions
in `problem?` are the same test. -/
theorem Pool.Config.problem?_eq_none_iff (c : Pool.Config) : c.problem? = none ↔ c.Usable := by
  simp only [problem?, check_eq_none, usable_iff, not_not]
  constructor
  · rintro ⟨hmin, hmax, hthreshold, hinterval, hticks, hmailbox, hwindow, hage, -⟩
    refine ⟨?_, ?_, hthreshold, ?_, ?_, ?_, ?_, ?_⟩ <;> omega
  · rintro ⟨hmin, hmax, hthreshold, hinterval, hticks, hmailbox, hwindow, hage⟩
    refine ⟨?_, ?_, hthreshold, ?_, ?_, ?_, ?_, ?_, trivial⟩ <;> omega

theorem Profile.Config.problem?_eq_none_iff (c : Profile.Config) :
    c.problem? = none ↔ c.Usable := by
  simp only [problem?, check_eq_none, usable_iff, not_not]
  constructor
  · rintro ⟨hthreads, hduration, hdrop, hreservoir, -⟩
    refine ⟨?_, ?_, hdrop, ?_⟩ <;> omega
  · rintro ⟨hthreads, hduration, hdrop, hreservoir⟩
    refine ⟨?_, ?_, hdrop, ?_, trivial⟩ <;> omega

theorem Veto.Policy.problem?_eq_none_iff (p : Veto.Policy Float) :
    p.problem? = none ↔ p.Usable := by
  have hlimit (b : Float) :
      (if 0.0 < b ∧ b ≤ 1.0 then none else some (Problem.contentionBeta b)) = none ↔
      0.0 < b ∧ b ≤ 1.0 := by
    simp
  simp only [problem?, check_eq_none, not_not, Option.bind_eq_none_iff, hlimit]
  exact ⟨fun ⟨hspeedup, hbeta⟩ => ⟨hspeedup, hbeta⟩, fun h => ⟨h.minSpeedup, h.contentionBeta⟩⟩

theorem Window.Config.problem?_eq_none_iff (c : Window.Config) :
    c.problem? = none ↔ 1 ≤ c.minSamples ∧ c.minSamples ≤ c.capacity ∧ 0 ≤ c.maxAgeMs := by
  simp only [problem?, check_eq_none, and_true]
  omega

/-! ## What can be made of usable settings -/

namespace Pool

variable {α : Type}

/-- A pool is made from `Usable` settings. What the window and the mailbox ask for is part of what
the pool asks for, so their own tests find nothing. -/
theorem ofConfig_of_usable {c : Config} (h : c.Usable) (now : Int) :
    (ofConfig c now : Except Problem (Pool α)) = .ok (create c now) := by
  have hwindow : Window.ofConfig c.window = .ok (.empty c.window) := by
    unfold Window.ofConfig
    rw [(Window.Config.problem?_eq_none_iff c.window).mpr ⟨h.minSamples.1, h.minSamples.2,
      h.maxAge⟩]
  have hmailbox : Mailbox.ofCapacity c.mailboxCapacity = .ok (.empty c.mailboxCapacity) :=
    if_neg (Nat.not_lt.mpr h.mailboxCapacity)
  unfold ofConfig
  rw [(Config.problem?_eq_none_iff c).mpr h, hwindow, hmailbox]
  rfl

end Pool

/-- With `Usable` settings a profiling run starts, whatever becomes of its levels. -/
theorem Profile.run_of_usable {c : Profile.Config} (h : c.Usable) (w : Profile.Workload) :
    Profile.run c w = .ok (Profile.runLevels c w 0 [] (Profile.threadCounts c.maxThreads)) := by
  unfold run
  rw [(Config.problem?_eq_none_iff c).mpr h]

/-- Settings stay usable when the most workers are set after a profile, since `Probe.capped` does
not go below the least number of workers. -/
theorem Pool.Config.Usable.capped {c : Pool.Config} (h : c.Usable)
    (a : Option (Profile.Analysis Float)) :
    (Probe.capped c a).Usable := by
  unfold Probe.capped
  split
  · split
    · exact { h with maxWorkers := Int.le_max_left _ _ }
    · exact h
  · exact h

namespace Settings

/-- A pool and every profiling run can be made from the settings: neither constructor finds a
problem. -/
def Builds (s : Settings) : Prop :=
  (∀ (α : Type) (now : Int), ∃ p : Pool α, Pool.ofConfig s.pool now = .ok p) ∧
    ∀ w, ∃ a entries, Profile.run s.profiler w = .ok (a, entries)

/-- Whatever is built from `Usable` settings is built without a fault. -/
theorem Usable.builds {s : Settings} (h : s.Usable) : s.Builds :=
  ⟨fun _ now => ⟨_, Pool.ofConfig_of_usable h.pool now⟩, fun w =>
    ⟨_, _, Profile.run_of_usable h.profiler w⟩⟩

/-- The settings that the probe works with: values from its command line for the profile, and after
a complete profile the best number of threads as the most workers. -/
def adapted (o : Probe.Options) (a : Option (Profile.Analysis Float)) (s : Settings) : Settings :=
  { o.override s with pool := Probe.capped (o.override s).pool a }

/-- The options of the command line are checked when they are read, so they cannot make settings
unusable. -/
theorem Usable.override {s : Settings} (h : s.Usable) (o : Probe.Options) :
    (o.override s).Usable := by
  refine { h with profiler := { h.profiler with maxThreads := ?_, duration := ?_ } }
  · show 1 ≤ if 0 < o.maxThreads then o.maxThreads else s.profiler.maxThreads
    have := h.profiler.maxThreads
    split <;> omega
  · show 0 < if 0 < o.durationMs then o.durationMs else s.profiler.durationMs
    have := h.profiler.duration
    split <;> omega

theorem Usable.adapted {s : Settings} (h : s.Usable) (o : Probe.Options)
    (a : Option (Profile.Analysis Float)) :
    (s.adapted o a).Usable :=
  { h.override o with pool := (h.override o).pool.capped a }

end Settings

end Headroom
