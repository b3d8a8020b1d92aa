import Headroom.Exposition
import Headroom.Number.Significant
import Headroom.Profile.Run
import Headroom.Report.Cliff
import Headroom.Report.Status
import Headroom.Settings.Resolve
import Headroom.Simulation.Call

/-!
# The probe

A program that tries the library on a workload of its own: it profiles the workload, runs a batch of
it through a pool, and tells what the veto made of the batch. All of it runs on virtual time.
-/

namespace Headroom.Probe

/-- What the probe leaves behind. -/
structure Outcome where
  exit : Nat
  stdout : Bytes
  stderr : Bytes

/-! ### The command line -/

/-- Workloads of the probe: waiting, computing, and waiting that gets longer with too
many threads. -/
inductive Task
  | waiting | computing | contending
deriving Repr, DecidableEq

def Task.ofName? (s : Bytes) : Option Task :=
  if s == text "io" then some .waiting
  else if s == text "cpu" then some .computing
  else if s == text "contention" then some .contending
  else none

structure Options where
  workload : Bytes := text "io"
  config : Bytes := []
  /-- Zero or less leaves this to the settings. -/
  maxThreads : Int := 0
  /-- Zero or less leaves this to the settings. -/
  durationMs : Int := 0
  items : Int := 500
  profiles : Bool := true
  runsPool : Bool := true
  exposes : Bool := false
  verbose : Bool := false

/-- Why the command line is not followed. -/
inductive Stop
  | help
  | unknownArgument (argument : Bytes)
  | badValue (argument : Bytes)

def usage : Bytes :=
  text "Usage: cliffguard_probe [--workload io|cpu|contention] [--max-threads N]\n"
    ++ text "                        [--duration-ms MS] [--items N] [--config PATH]\n"
    ++ text "                        [--profile-only|--pool-only] [--prometheus] [-v]\n"
    ++ text "Notes: settings resolve config file -> CLIFFGUARD_* environment -> defaults;\n"
    ++ text "       flags override both.\n"

/-- A number on the command line. What follows the digits is not looked at. -/
def number? (s : Bytes) : Option Int := do
  let (n, _) ← Reader.leadingInt? s
  if Reader.fits32 n then some n else none

/-- What an option does with the value that follows it. -/
def option? (name : Bytes) : Option (Bytes → Options → Option Options) :=
  let numeric (set : Int → Options → Options) : Bytes → Options → Option Options :=
    fun value o => (number? value).map fun n => set n o
  if name == text "--workload" then some fun value o => some { o with workload := value }
  else if name == text "--config" then some fun value o => some { o with config := value }
  else if name == text "--max-threads" then some (numeric fun n o => { o with maxThreads := n })
  else if name == text "--duration-ms" then some (numeric fun n o => { o with durationMs := n })
  else if name == text "--items" then some (numeric fun n o => { o with items := n })
  else none

/-- What a flag does. -/
def flag? (name : Bytes) : Option (Options → Options) :=
  if name == text "--profile-only" then some fun o => { o with runsPool := false }
  else if name == text "--pool-only" then some fun o => { o with profiles := false }
  else if name == text "--prometheus" then some fun o => { o with exposes := true }
  else if name == text "-v" || name == text "--verbose" then some fun o =>
    { o with verbose := true }
  else none

/-- An argument that stands for itself. -/
def single (name : Bytes) (o : Options) : Except Stop Options :=
  match flag? name with
  | some set => .ok (set o)
  | none => if name == text "-h" || name == text "--help" then .error .help
      else .error (.unknownArgument name)

/-- Reads arguments from left to right. An option without a value is not known. -/
def parse : List Bytes → Options → Except Stop Options
  | [], o => .ok o
  | [name], o => single name o
  | name :: value :: rest, o =>
    match option? name with
    | some set =>
      match set value o with
      | some o => parse rest o
      | none => .error (.badValue name)
    | none => (single name o).bind (parse (value :: rest))

/-! ### The workloads -/

/-- The time of one call among so many threads, in nanoseconds. -/
def Task.time (threads : Nat) : Task → Int
  | waiting => 5000000
  | computing => 0
  | contending => if threads ≤ 4 then 1000000 else 2000000 * threads

/-- A task as a workload. Computing counts as the shortest time that there is. -/
def Task.workload (counts : List Nat) (t : Task) : Profile.Workload :=
  fun level _ _ => .takes (max 1 (t.time (counts.getD level 1)))

/-! ### The run -/

def complaint (s : Bytes) : Bytes := text "cliffguard_probe: " ++ s ++ [10]

/-- The settings with what the command line asks for. -/
def Options.override (o : Options) (s : Settings) : Settings :=
  { s with
    profiler := { s.profiler with
      maxThreads := if 0 < o.maxThreads then o.maxThreads else s.profiler.maxThreads
      durationMs := if 0 < o.durationMs then o.durationMs else s.profiler.durationMs } }

/-- The outcome of a part that failed, after what was written before. -/
def failed (f : Fault) (before : Outcome) : Outcome :=
  if f.kind = .configuration then
    { before with
      exit := 2
      stderr := before.stderr ++ complaint (text "configuration error: " ++ f.describe) }
  else { before with exit := 1, stderr := before.stderr ++ complaint f.describe }

/-- The profile of the workload. -/
def profilePart (o : Options) (t : Task) (threshold : Int) (s : Settings) (before : Outcome) :
    Outcome × Option (Profile.Analysis Float) :=
  let heading := text "Profiling '" ++ o.workload ++ text "' up to " ++
    Bytes.ofInt s.profiler.maxThreads
    ++ text " threads, " ++ Bytes.ofInt s.profiler.durationMs ++ text "ms per level\n\n"
  let before := { before with stdout := before.stdout ++ heading }
  match Profile.run s.profiler (t.workload (Profile.threadCounts s.profiler.maxThreads)) with
  | .error p => (failed (.unusable p) before, none)
  | .ok (a, entries) =>
    ({ before with
        stdout := before.stdout ++ Report.report a ++ [10]
          ++ (if o.exposes then Exposition.profile a o.workload ++ [10] else [])
        stderr := before.stderr ++ Log.render threshold entries },
      some a)

/-- A pool is not given more workers than the best number of threads. -/
def capped (c : Pool.Config) (a : Option (Profile.Analysis Float)) : Pool.Config :=
  match a with
  | some a => if a.complete then { c with maxWorkers := max c.minWorkers a.optimal } else c
  | none => c

/-- What is written about a finished batch. -/
def poolReport (o : Options) (s : Settings) (d : Veto.Decision Float) (items : Nat) (took : Int)
    (source : Bytes) (snapshot : Pool.Snapshot) : Bytes :=
  Report.explain d s.veto ++ [10]
    ++ text "Processed " ++ Bytes.ofNat items ++ text " items in "
    ++ Significant.render 6 (Float.ofInt took / 1000000000.0) ++ text "s (cpu source: " ++ source ++
      text ")\n"
    ++ Report.statusLine snapshot ++ [10]
    ++ (if o.exposes then 10 :: Exposition.pool snapshot o.workload else [])

/-- The batch in a pool. -/
def poolPart (o : Options) (t : Task) (h : Host) (threshold : Int) (s : Settings)
    (a : Option (Profile.Analysis Float)) (before : Outcome) : Outcome :=
  let config := capped s.pool a
  let time := t.time config.maxWorkers.toNat
  match Simulation.create h threshold config none with
  | .error p => failed (.unusable p) before
  | .ok (sim : Simulation Unit) =>
    match sim.start with
    | (sim, some f) => failed f { before with stderr := before.stderr ++ sim.log }
    | (sim, none) =>
      let bodies := List.replicate o.items.toNat (.ok ())
      let (sim, d, values) :=
        sim.safeMap s.veto none (a.bind (·.cliff)) { wall := time } (t.time 1) bodies
      let took := sim.clock
      let sim := (sim.shutdown true).1
      let before := { before with stderr := before.stderr ++ sim.log }
      match values with
      | .error f => failed f before
      | .ok values =>
        { before with
          stdout := before.stdout
            ++ poolReport o s d values.length took sim.meter.name sim.pool.latest }

/-- Runs the parts that were asked for. -/
def execute (o : Options) (t : Task) (h : Host) : Outcome :=
  let threshold := Log.threshold h.environment (if o.verbose then Log.Level.debug.code else -1)
  let before : Outcome :=
    ⟨0, [], Log.render threshold (Settings.entries h.environment h.files o.config)⟩
  match Settings.load h.environment h.files h.hardware o.config with
  | .error p => failed (.unusable p) before
  | .ok s =>
    let s := o.override s
    match s.profiler.problem? with
    | some p => failed (.unusable p) before
    | none =>
      let (before, a) := if o.profiles then profilePart o t threshold s before else (before, none)
      if before.exit != 0 || !o.runsPool then before else poolPart o t h threshold s a before

/-- The whole program. -/
def run (h : Host) (arguments : List Bytes) : Outcome :=
  match parse (arguments.map Bytes.untilNul) {} with
  | .error .help => ⟨0, usage, []⟩
  | .error (.unknownArgument a) =>
    ⟨2, usage, complaint (text "unknown argument '" ++ a ++ text "'")⟩
  | .error (.badValue a) => ⟨2, [], complaint (text "bad value for " ++ a)⟩
  | .ok o =>
    match Task.ofName? o.workload with
    | none => ⟨2, [], complaint (text "unknown workload '" ++ o.workload ++ text "'")⟩
    | some t => execute o t h

end Headroom.Probe
