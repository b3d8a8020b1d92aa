import Headroom.Proofs.Agreement
import Headroom.Proofs.Resolution

/-!
# Loading settings

* **`Origin.load_eq`**: settings from a text and settings from a file are made in the same way.
* **`execute_exit_eq_two_iff`**: the probe ends with its status for configuration faults exactly if
  its settings were refused. The pool that it makes of settings that were not is usable, and a batch
  of sound tasks in it has no fault.
* **`loaded_settings_are_usable`**: what is loaded can be used, and what is refused could not.
-/

namespace Headroom

open Pool

/-! ## Origins -/

namespace Settings

/-- Where settings are loaded from: a text, or the file at a path. -/
inductive Origin
  | text (source : Bytes)
  | file (files : Files) (path : Bytes)

namespace Origin

def load (env : Environment) (hardware : Nat) : Origin → Except Problem Settings
  | text source => Settings.ofBytes env hardware source
  | file files path => Settings.load env files hardware path

/-- The document that is read; one without sections if there is no file. -/
def document (env : Environment) : Origin → Document
  | text source => .ofBytes source
  | file files path => ((find? env files path).map Prod.snd).getD .empty

/-- However settings are loaded, `resolve` makes them from one document and the environment. -/
theorem load_eq (env : Environment) (hardware : Nat) (origin : Origin) :
    ∃ source, origin.load env hardware = resolve ⟨origin.document env, env⟩ hardware source := by
  cases origin with
  | text source => exact ⟨_, rfl⟩
  | file files path =>
    simp only [load, document, Settings.load]
    cases find? env files path with
    | none => exact ⟨_, rfl⟩
    | some found => exact ⟨_, rfl⟩

/-- Settings that are returned are `Usable`, wherever they come from. -/
theorem usable_of_load (origin : Origin) {env : Environment} {hardware : Nat} {s : Settings}
    (h : origin.load env hardware = .ok s) : s.Usable := by
  obtain ⟨source, hload⟩ := origin.load_eq env hardware
  rw [hload] at h
  exact (resolve_eq_ok_iff.mp h).2.2

end Origin

end Settings

/-! ## The probe -/

namespace Simulation

variable {α : Type} {config : Config}

/-- A simulation of `Usable` settings is created, with a fresh pool and nothing in its way. -/
theorem create_of_usable (h : config.Usable) (host : Host) (threshold : Int) :
    ∃ sim : Simulation α, create host threshold config none = .ok sim ∧
      sim.pool = .create config 0 ∧ sim.Smooth [] := by
  unfold create
  rw [Pool.ofConfig_of_usable h]
  exact ⟨_, rfl, rfl, trivial, by simp [say], rfl⟩

theorem soundly_fire {e : Event α} (he : e.Sound) (s : Simulation α) :
    ∃ es, Soundly s.pool es (s.fire e).pool := by
  cases hstep : s.pool.step e with
  | none => exact ⟨[], by rw [fire_of_none hstep]; exact .refl _⟩
  | some q =>
    rw [pool_fire hstep]
    exact ⟨[e], .step hstep he⟩

theorem soundly_announce (s : Simulation α) : ∃ es, Soundly s.pool es s.announce.pool := by
  obtain ⟨es, hfirst⟩ := soundly_fire (e := .read) trivial s
  obtain ⟨fs, hsecond⟩ := soundly_fire (e := .read) trivial (s.fire .read)
  obtain ⟨gs, hthird⟩ := soundly_fire (e := .read) trivial ((s.fire .read).fire .read)
  exact ⟨es ++ fs ++ gs, (hfirst.trans hsecond).trans hthird⟩

theorem Smooth.announce {gates : List Bytes} {s : Simulation α} (h : s.Smooth gates) :
    s.announce.Smooth gates :=
  ((h.fire .read).fire .read).fire .read

/-- A fresh pool starts unless no worker can be launched, and then its simulation is `Smooth`. -/
theorem start_cases {sim : Simulation α} (hpool : sim.pool = .create config 0)
    (hsmooth : sim.Smooth []) :
    sim.start.2 = some .noWorker ∨
      sim.start.2 = none ∧ sim.start.1.Smooth [] ∧
        ∃ es, Soundly (.create config 0) es sim.start.1.pool ∧
          sim.start.1.pool.phase = .running := by
  have hphase : sim.pool.phase = .created := by rw [hpool]; rfl
  have hfree : sim.pool.draft = none := by rw [hpool]; rfl
  have hstep := step_start hfree sim.host.launches true sim.clock
  have hfire : (sim.fire (.start sim.host.launches true sim.clock)).pool =
      (sim.pool.start sim.host.launches true sim.clock).1 := pool_fire hstep
  -- apart from the pool, a start only says when the monitor looks next
  have hlaunched : sim.launchPool.1.Smooth [] ∧
      sim.launchPool.1.pool =
        (sim.fire (.start sim.host.launches true sim.clock)).announce.pool := by
    have hsmooth' := (hsmooth.fire (.start sim.host.launches true sim.clock)).announce
    unfold launchPool
    simp only [hphase]
    exact ⟨⟨hsmooth'.meter, hsmooth'.plans, hsmooth'.gates⟩, rfl⟩
  cases hstart : sim.pool.start sim.host.launches true sim.clock with
  | mk q fault =>
    have hfault : sim.start.2 = fault := congrArg Prod.snd hstart
    cases fault with
    | some f =>
      left
      -- the only fault of a first start with a monitor is that no worker was launched
      rw [start_created _ _ _ hphase] at hstart
      split at hstart
      · cases hstart
        exact hfault
      · cases hstart
    | none =>
      right
      obtain ⟨_, _, hrunning⟩ := start_eq_ok hphase hstart
      have hfirst : Soundly (.create config 0) [.start sim.host.launches true sim.clock] q := by
        refine .step ?_ trivial
        rw [← hpool, hstep, hstart]
      obtain ⟨fs, hread⟩ := soundly_announce (sim.fire (.start sim.host.launches true sim.clock))
      rw [hfire, hstart, ← hlaunched.2] at hread
      obtain ⟨hrested, -, es, hrest⟩ := hlaunched.1.rest (hfirst.trans hread)
      exact ⟨hfault, hrested, _, (hfirst.trans hread).trans hrest,
        hfirst.running hrunning (hread.trans hrest)⟩

/-- A batch of sound tasks has no fault, in the pool or without it. -/
theorem safeMap_values {sim : Simulation α} {es : List (Event α)} (hconfig : config.Usable)
    (hsmooth : sim.Smooth []) (hrun : Soundly (.create config 0) es sim.pool)
    (hphase : sim.pool.phase = .running) (plan : Plan) (hplan : plan.Smooth [])
    (policy : Veto.Policy Float) (speedup : Option Float) (cliff : Option Int) (pause : Int)
    (values : List α) :
    (sim.safeMap policy speedup cliff plan pause (values.map .ok)).2.2 = .ok values := by
  cases hjudged : (sim.judge policy (values.map Except.ok).length speedup cliff).2.approved with
  | true =>
    have hresults : itemResults 0 (values.map Except.ok) = values.map Except.ok :=
      itemResults_values.mpr rfl
    rw [safeMap_of_approved hjudged, hsmooth.judge.map hconfig.minWorkers hconfig.maxWorkers hrun
      hphase hplan, hresults]
    exact gather_values _ _
  | false =>
    rw [safeMap_of_vetoed hjudged]
    exact sequential_values _ _

end Simulation

namespace Probe

variable {o : Options} {t : Task} {h : Host} {threshold : Int} {s : Settings} {before : Outcome}

/-- The profile of `Usable` settings does not change how the probe exits. -/
theorem exit_profilePart (hs : s.Usable) :
    (profilePart o t threshold s before).1.exit = before.exit := by
  unfold profilePart
  rw [Profile.run_of_usable hs.profiler]

/-- The pool of a `Usable` configuration fails only if no worker can be launched. -/
theorem exit_poolPart (hs : s.Usable) (a : Option (Profile.Analysis Float))
    (hbefore : before.exit = 0) :
    (poolPart o t h threshold s a before).exit ≠ 2 := by
  have hconfig := hs.pool.capped a
  obtain ⟨sim, hcreate, hpool, hsmooth⟩ :=
    Simulation.create_of_usable (α := Unit) hconfig h threshold
  unfold poolPart
  dsimp only
  rw [hcreate]
  dsimp only
  cases hstart : sim.start with
  | mk started fault =>
    have hcases := Simulation.start_cases hpool hsmooth
    rw [hstart] at hcases
    rcases hcases with hfault | ⟨hfault, hstarted, es, hrun, hphase⟩
    · cases hfault
      show (1 : Nat) ≠ 2
      decide
    · cases hfault
      -- the probe maps a function that returns nothing, so all its items have values
      have hbodies : List.replicate o.items.toNat (Except.ok () : Result Unit) =
          (List.replicate o.items.toNat ()).map .ok := List.map_replicate.symm
      have hvalues := Simulation.safeMap_values hconfig hstarted hrun hphase
        { wall := t.time (capped s.pool a).maxWorkers.toNat } ⟨rfl, nofun⟩ s.veto none
          (a.bind (·.cliff))
        (t.time 1) (List.replicate o.items.toNat ())
      rw [← hbodies] at hvalues
      dsimp only
      rw [hvalues]
      show before.exit ≠ 2
      omega

/-- Both parts together, in any of their combinations, do not exit with 2, which is kept for
settings that cannot be loaded. -/
theorem exit_parts (hs : s.Usable) (hbefore : before.exit = 0)
    (part : Outcome × Option (Profile.Analysis Float))
    (hpart : part = if o.profiles then profilePart o t threshold s before else (before, none)) :
    (if part.1.exit != 0 || !o.runsPool then part.1
      else poolPart o t h threshold s part.2 part.1).exit ≠ 2 := by
  have hexit : part.1.exit = 0 := by
    rw [hpart]
    split
    · exact (exit_profilePart hs).trans hbefore
    · exact hbefore
  split
  · omega
  · exact exit_poolPart hs part.2 hexit

/-- The probe exits with 2 exactly if the settings could not be loaded. -/
theorem execute_exit_eq_two_iff (o : Options) (t : Task) (h : Host) :
    (execute o t h).exit = 2 ↔ ∃ p,
      Settings.load h.environment h.files h.hardware o.config = .error p := by
  unfold execute
  cases hload : Settings.load h.environment h.files h.hardware o.config with
  | error p => exact ⟨fun _ => ⟨p, rfl⟩, fun _ => rfl⟩
  | ok s =>
    have hs := (Settings.Origin.usable_of_load (.file h.files o.config) hload).override o
    dsimp only
    rw [(Profile.Config.problem?_eq_none_iff _).mpr hs.profiler]
    exact ⟨fun hexit => absurd hexit (exit_parts hs rfl _ rfl), nofun⟩

end Probe

namespace Settings

/-- **What is loaded can be used.** If settings are returned, from whatever text or file and in
whatever environment, then they are `Usable`: a pool, with its window and its mailbox, and every
profiling run can be made from them (`Builds`), also after the probe has put its own values in
(`adapted`). If they are not, the fault is one of configuration, and the values that were looked up
are not those of any usable settings. The probe tells a configuration fault in this case and in no
other. -/
theorem loaded_settings_are_usable :
    (∀ (origin : Origin) env hardware s, origin.load env hardware = .ok s →
      s.Usable ∧ s.Builds ∧ ∀ o a, (s.adapted o a).Builds) ∧
      (∀ (origin : Origin) env hardware p, origin.load env hardware = .error p →
        (Fault.unusable p).kind = .configuration ∧
          ¬∃ s : Settings, Lookup.values ⟨origin.document env, env⟩ hardware = s.held ∧ s.Usable) ∧
      (∀ o t h, (Probe.execute o t h).exit = 2 ↔
        ∃ p, load h.environment h.files h.hardware o.config = .error p) := by
  refine ⟨fun origin env hardware s hs => ?_, fun origin env hardware p hp =>
    ⟨rfl, ?_⟩, Probe.execute_exit_eq_two_iff⟩
  · have husable := origin.usable_of_load hs
    exact ⟨husable, husable.builds, fun o a => (husable.adapted o a).builds⟩
  · rintro ⟨s, hheld, husable⟩
    obtain ⟨source, hload⟩ := origin.load_eq env hardware
    have hok : resolve ⟨origin.document env, env⟩ hardware source = .ok { s with source } :=
      resolve_eq_ok_iff.mpr ⟨rfl, hheld, ⟨husable.pool, husable.profiler, husable.veto⟩⟩
    rw [← hload, hp] at hok
    cases hok

/-- As many workers at most as at least, and the highest limit that there is. -/
def atBounds : Bytes :=
  text "[pool]\nmin_workers = 3\nmax_workers = 3\n[veto]\ncontention_beta = 1\n"

/-- A window of the size that an estimate needs, and a cliff that is hardly ever reached; the second
one under `Environment.lower`. -/
def narrow : Environment :=
  ⟨[(text "CLIFFGUARD_MONITOR_WINDOW", text "5"), (text "cliffguard_CLIFF_DROP", text "0.999")]⟩

/-- A machine without files, whose environment asks for a threshold that is no number. -/
def unruly : Host :=
  { environment := ⟨[(text "CLIFFGUARD_BLOCKING_THRESHOLD", text "nan")]⟩, files := ⟨[]⟩
    hardware := 4
    threadClock := true, refusedLaunches := [] }

theorem loaded_settings_are_usable_atBounds :
    (∃ s, (Origin.text atBounds).load narrow 0 = .ok s ∧ s.Usable ∧
      (s.adapted { maxThreads := 2, durationMs := 5 }
        (some (Profile.analyze [] true 0.2))).Builds) ∧
      (∃ p, (Origin.file ⟨[]⟩ []).load unruly.environment 4 = .error p ∧
        ¬∃ s : Settings, Lookup.values ⟨.empty, unruly.environment⟩ 4 = s.held ∧ s.Usable) ∧
      (Probe.execute {} .waiting unruly).exit = 2 := by
  obtain ⟨husable, hrefused, hprobe⟩ := loaded_settings_are_usable
  obtain ⟨s, hs⟩ := exists_ok (by decide +kernel : ((Origin.text atBounds).load narrow 0).isOk =
    true)
  have hbuilds := husable _ _ _ s hs
  have hp : (Origin.file ⟨[]⟩ []).load unruly.environment 4 =
      .error (.blockingThreshold (0.0 / 0.0)) := rfl
  exact ⟨⟨s, hs, hbuilds.1, hbuilds.2.2 _ _⟩, ⟨_, hp, (hrefused _ _ _ _ hp).2⟩,
    (hprobe _ _ _).mpr ⟨_, hp⟩⟩

end Settings

end Headroom
