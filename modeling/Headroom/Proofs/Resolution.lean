import Headroom.Proofs.Strings
import Headroom.Proofs.Usability

/-!
# Where settings come from

All settings as one table: the key of each, how its text is read, and its default. The table is a
second account of what `resolve` does, entry by entry, and the statements about all settings are
read off it.

* **`Lookup.value`**: what a setting is looked up as. The document is asked first, then the
  variable, then the default.
* **`resolve_eq_ok_iff`**: settings are returned exactly if they hold the values of the table and
  are usable.
* **`resolve_congr`**: nothing else than the values of the table goes into the result.
* **`environment_fills_gaps_only`**: the environment has a say on keys that the document does not
  have, and on no others.
-/

namespace Headroom.Settings

/-! ## The table -/

/-- What a setting holds, by its type: a number, a flag, a policy or a limit. -/
inductive Value
  | int (n : Int)
  | float (x : Float)
  | flag (b : Bool)
  /-- A policy, or that no policy has that name. -/
  | policy (p : Except Problem FailurePolicy)
  /-- A limit; one that is not positive sets none. -/
  | limit (x : Option Float)

/-- How a setting is read, and its default. A limit is a float of which a value that is not positive
means none. -/
inductive Form
  | int (default : Int)
  | float (default : Float)
  | flag (default : Bool)
  | policy (default : Bytes)
  | limit (default : Float)

def limitOf (x : Float) : Option Float := if 0.0 < x then some x else none

namespace Form

def default : Form → Value
  | int n => .int n
  | float x => .float x
  | flag b => .flag b
  | policy s => .policy (FailurePolicy.ofName s)
  | limit x => .limit (limitOf x)

/-- What a text in the document is read as. The document has lenient readers. -/
def ofDocument? (raw : Bytes) : Form → Option Value
  | int _ => (Reader.lenientInt? raw).map .int
  | float _ => (Reader.lenientFloat? raw).map .float
  | flag _ => (Document.flagOf? raw).map .flag
  | policy _ => some (.policy (FailurePolicy.ofName raw))
  | limit _ => (Reader.lenientFloat? raw).map fun x => .limit (limitOf x)

/-- What the text of a variable is read as. A variable has to be a number as a whole. -/
def ofVariable? (raw : Bytes) : Form → Option Value
  | int _ => (Reader.plainInt? raw).map .int
  | float _ => (Reader.plainFloat? raw).map .float
  | flag _ => (Environment.flagOf? raw).map .flag
  | policy _ => some (.policy (FailurePolicy.ofName raw))
  | limit _ => (Reader.plainFloat? raw).map fun x => .limit (limitOf x)

end Form

/-- Where the settings are looked up, how they are read, and what they are by default: the only
place where all of them are listed. -/
def table (hardware : Nat) : List (Key × Form) :=
  [(.minWorkers, .int 1), (.maxWorkers, .int (Pool.Config.defaultMaxWorkers hardware)),
    (.blockingThreshold, .float 0.3), (.monitorInterval, .int 1000), (.hysteresisTicks, .int 3),
    (.queueCapacity, .int 0), (.mailboxCapacity, .int 4096),
    (.failurePolicy, .policy (text "raise_on_first")), (.window, .int 200), (.minSamples, .int 5),
    (.maxAge, .int 5000), (.maxThreads, .int 32), (.duration, .int 1000), (.cliffDrop, .float 0.2),
    (.stopAtCliff, .flag false), (.reservoir, .int 4096), (.minItems, .int 100),
    (.minSpeedup, .float 1.1), (.contentionBeta, .limit 0.0)]

/-- What settings hold, by key, in the order of `table`. -/
def held (s : Settings) : List (Key × Value) :=
  [(.minWorkers, .int s.pool.minWorkers), (.maxWorkers, .int s.pool.maxWorkers),
    (.blockingThreshold, .float s.pool.blockingThreshold),
    (.monitorInterval, .int s.pool.monitorIntervalMs),
    (.hysteresisTicks, .int s.pool.hysteresisTicks), (.queueCapacity, .int s.pool.queueCapacity),
    (.mailboxCapacity, .int s.pool.mailboxCapacity),
    (.failurePolicy, .policy (.ok s.pool.failurePolicy)), (.window, .int s.pool.window.capacity),
    (.minSamples, .int s.pool.window.minSamples), (.maxAge, .int s.pool.window.maxAgeMs),
    (.maxThreads, .int s.profiler.maxThreads), (.duration, .int s.profiler.durationMs),
    (.cliffDrop, .float s.profiler.cliffDrop), (.stopAtCliff, .flag s.profiler.stopAtCliff),
    (.reservoir, .int s.profiler.reservoir), (.minItems, .int s.veto.minItems),
    (.minSpeedup, .float s.veto.minSpeedup), (.contentionBeta, .limit s.veto.contentionBeta)]

/-- The value of a setting: what the document says, even if that cannot be read; else what the
variable says, if that can be read; else the default. -/
def Lookup.value (l : Lookup) (k : Key) (f : Form) : Value :=
  match l.document.get? k.group k.name with
  | some raw => (f.ofDocument? raw).getD f.default
  | none => ((l.environment.lookup? k.var).bind f.ofVariable?).getD f.default

/-- The values of all settings, in the order of `table`. -/
def Lookup.values (l : Lookup) (hardware : Nat) : List (Key × Value) :=
  (table hardware).map fun entry => (entry.1, l.value entry.1 entry.2)

/-! ### Single settings

Integers, fractions, flags and texts are looked up in one way, with a pair of readers for each. -/

section

variable {α : Type} {l l' : Lookup} {k : Key} {fromDocument fromVariable : Bytes → Option α} {d : α}

/-- A setting that is read by one reader in the document and by another in a variable. The five
kinds of settings are looked up in this one way. -/
def Lookup.pick (l : Lookup) (k : Key) (fromDocument fromVariable : Bytes → Option α) (d : α) : α :=
  if l.document.has k.group k.name then ((l.document.get? k.group k.name).bind fromDocument).getD d
  else ((l.environment.lookup? k.var).bind fromVariable).getD d

/-- The value of a setting by its `Form` is what its typed lookup returns. -/
theorem value_of_pick {f : Form} (wrap : α → Value)
    (hdocument : ∀ raw, f.ofDocument? raw = (fromDocument raw).map wrap)
    (hvariable : ∀ raw, f.ofVariable? raw = (fromVariable raw).map wrap)
    (hdefault : f.default = wrap d) :
    l.value k f = wrap (l.pick k fromDocument fromVariable d) := by
  unfold Lookup.value Lookup.pick Document.has
  cases l.document.get? k.group k.name with
  | some raw =>
    show (f.ofDocument? raw).getD f.default = wrap ((fromDocument raw).getD d)
    rw [hdocument, hdefault]
    cases fromDocument raw <;> rfl
  | none =>
    show ((l.environment.lookup? k.var).bind f.ofVariable?).getD f.default = _
    cases l.environment.lookup? k.var with
    | none => exact hdefault
    | some raw =>
      show (f.ofVariable? raw).getD f.default = wrap ((fromVariable raw).getD d)
      rw [hvariable, hdefault]
      cases fromVariable raw <;> rfl

theorem value_int (n : Int) : l.value k (.int n) = .int (l.int k n) :=
  value_of_pick .int (fun _ => rfl) (fun _ => rfl) rfl

theorem value_float (x : Float) : l.value k (.float x) = .float (l.float k x) :=
  value_of_pick .float (fun _ => rfl) (fun _ => rfl) rfl

theorem value_flag (b : Bool) : l.value k (.flag b) = .flag (l.flag k b) :=
  value_of_pick .flag (fun _ => rfl) (fun _ => rfl) rfl

theorem value_limit (x : Float) : l.value k (.limit x) = .limit (limitOf (l.float k x)) :=
  value_of_pick (fun y => .limit (limitOf y)) (fun _ => rfl) (fun _ => rfl) rfl

theorem value_policy (s : Bytes) :
    l.value k (.policy s) = .policy (FailurePolicy.ofName (l.string k s)) := by
  have htext : l.string k s = l.pick k some some s := by
    unfold Lookup.string Lookup.pick Document.string
    rw [Option.bind_fun_some, Option.bind_fun_some]
  rw [htext]
  exact value_of_pick (fun t => .policy (FailurePolicy.ofName t)) (fun _ => rfl) (fun _ => rfl) rfl

end

/-! ## What `resolve` returns -/

section

variable {l l' : Lookup} {hardware : Nat} {source : Bytes}

theorem bind_eq_ok_iff {α β : Type} {x : Except Problem α} {f : α → Except Problem β} {b : β} :
    (x >>= f) = .ok b ↔ ∃ a, x = .ok a ∧ f a = .ok b := by
  cases x with
  | error p => exact ⟨nofun, nofun⟩
  | ok a => exact ⟨fun h => ⟨a, rfl, h⟩, fun ⟨_, ha, h⟩ => Except.ok.inj ha ▸ h⟩

theorem count_eq_ok_iff {k : Key} {default : Int} {what : String} {n : Nat} :
    l.count k default what = .ok n ↔ l.int k default = n := by
  show (if l.int k default < 0 then Except.error (Problem.negative (text what) (l.int k default))
    else .ok (l.int k default).toNat) = .ok n ↔ _
  split
  · next hneg => exact ⟨nofun, fun h => by omega⟩
  · next hneg =>
    rw [Except.ok.injEq]
    omega

theorem accept_eq_ok_iff {problem? : Option Problem} {u : Unit} :
    accept problem? = .ok u ↔ problem? = none := by
  cases problem? with
  | none => exact ⟨fun _ => rfl, fun _ => rfl⟩
  | some p => exact ⟨nofun, nofun⟩

theorem window_eq_ok_iff {w : Window.Config} :
    l.window = .ok w ↔ l.int .window 200 = w.capacity ∧ l.int .minSamples 5 = w.minSamples ∧
      l.int .maxAge 5000 = w.maxAgeMs := by
  simp only [Lookup.window, bind_eq_ok_iff, count_eq_ok_iff]
  constructor
  · rintro ⟨capacity, hcapacity, minSamples, hmin, heq⟩
    cases heq
    exact ⟨hcapacity, hmin, rfl⟩
  · rintro ⟨hcapacity, hmin, hage⟩
    exact ⟨_, hcapacity, _, hmin, by rw [hage]; rfl⟩

theorem pool_eq_ok_iff {c : Pool.Config} :
    l.pool hardware = .ok c ↔
      (l.int .minWorkers 1 = c.minWorkers ∧
        l.int .maxWorkers (Pool.Config.defaultMaxWorkers hardware) = c.maxWorkers ∧
        l.float .blockingThreshold 0.3 = c.blockingThreshold ∧ l.int .monitorInterval 1000 =
          c.monitorIntervalMs ∧
        l.int .hysteresisTicks 3 = c.hysteresisTicks ∧ l.int .queueCapacity 0 = c.queueCapacity ∧
        l.int .mailboxCapacity 4096 = c.mailboxCapacity ∧
        FailurePolicy.ofName (l.string .failurePolicy (text "raise_on_first")) =
          .ok c.failurePolicy) ∧
      l.window = .ok c.window := by
  simp only [Lookup.pool, bind_eq_ok_iff, count_eq_ok_iff]
  constructor
  · rintro ⟨queue, hqueue, mailbox, hmailbox, policy, hpolicy, window, hwindow, heq⟩
    cases heq
    exact ⟨⟨rfl, rfl, rfl, rfl, rfl, hqueue, hmailbox, hpolicy⟩, hwindow⟩
  · rintro ⟨⟨hmin, hmax, hthreshold, hinterval, hticks, hqueue, hmailbox, hpolicy⟩, hwindow⟩
    refine ⟨_, hqueue, _, hmailbox, _, hpolicy, _, hwindow, ?_⟩
    rw [hmin, hmax, hthreshold, hinterval, hticks]
    rfl

theorem profiler_eq_ok_iff {c : Profile.Config} :
    l.profiler = .ok c ↔ l.int .maxThreads 32 = c.maxThreads ∧ l.int .duration 1000 = c.durationMs ∧
      l.float .cliffDrop 0.2 = c.cliffDrop ∧ l.flag .stopAtCliff false = c.stopAtCliff ∧
      l.int .reservoir 4096 = c.reservoir := by
  simp only [Lookup.profiler, bind_eq_ok_iff, count_eq_ok_iff]
  constructor
  · rintro ⟨reservoir, hreservoir, heq⟩
    cases heq
    exact ⟨rfl, rfl, rfl, rfl, hreservoir⟩
  · rintro ⟨hthreads, hduration, hdrop, hstop, hreservoir⟩
    refine ⟨_, hreservoir, ?_⟩
    rw [hthreads, hduration, hdrop, hstop]
    rfl

theorem veto_eq_ok_iff {p : Veto.Policy Float} :
    l.veto = .ok p ↔ l.int .minItems 100 = p.minItems ∧ l.float .minSpeedup 1.1 = p.minSpeedup ∧
      limitOf (l.float .contentionBeta 0.0) = p.contentionBeta := by
  simp only [Lookup.veto, bind_eq_ok_iff, count_eq_ok_iff]
  constructor
  · rintro ⟨items, hitems, heq⟩
    cases heq
    exact ⟨hitems, rfl, rfl⟩
  · rintro ⟨hitems, hspeedup, hlimit⟩
    refine ⟨_, hitems, ?_⟩
    rw [hspeedup, ← limitOf, hlimit]
    rfl

/-- Settings hold the values of the `table` if each part holds its own. -/
theorem values_eq_held_iff {s : Settings} :
    l.values hardware = s.held ↔ l.pool hardware = .ok s.pool ∧ l.profiler = .ok s.profiler ∧
      l.veto = .ok s.veto := by
  simp only [held, Lookup.values, table, List.map_cons, List.map_nil, value_int, value_float,
    value_flag, value_policy, value_limit, List.cons.injEq, Prod.mk.injEq, Value.int.injEq,
    Value.float.injEq, Value.flag.injEq, Value.policy.injEq, Value.limit.injEq, true_and, and_true,
    pool_eq_ok_iff, window_eq_ok_iff, profiler_eq_ok_iff, veto_eq_ok_iff, and_assoc]

/-- **What is returned.** Settings are returned exactly if they hold the values of the table and are
`Usable`, so no problem is found without a reason and none is missed. -/
theorem resolve_eq_ok_iff {s : Settings} :
    resolve l hardware source = .ok s ↔ s.source = source ∧ l.values hardware = s.held ∧
      s.Usable := by
  simp only [resolve, bind_eq_ok_iff, accept_eq_ok_iff, Pool.Config.problem?_eq_none_iff,
    Profile.Config.problem?_eq_none_iff, Veto.Policy.problem?_eq_none_iff, values_eq_held_iff]
  constructor
  · rintro ⟨pool, hpool, profiler, hprofiler, veto, hveto, _, hp, _, hr, _, hv, heq⟩
    cases heq
    exact ⟨rfl, ⟨hpool, hprofiler, hveto⟩, ⟨hp, hr, hv⟩⟩
  · rintro ⟨rfl, ⟨hpool, hprofiler, hveto⟩, h⟩
    exact ⟨_, hpool, _, hprofiler, _, hveto, (), h.pool, (), h.profiler, (), h.veto, rfl⟩

/-- Settings and problems alike come from the values of the `table`: nothing else of the document or
the environment is looked at. -/
theorem resolve_congr (h : l.values hardware = l'.values hardware) :
    resolve l hardware source = resolve l' hardware source := by
  simp only [Lookup.values, table, List.map_cons, List.map_nil, value_int, value_float, value_flag,
    value_policy, value_limit, List.cons.injEq, Prod.mk.injEq, Value.int.injEq, Value.float.injEq,
    Value.flag.injEq, Value.policy.injEq, Value.limit.injEq, limitOf, true_and, and_true] at h
  simp only [resolve, Lookup.pool, Lookup.window, Lookup.profiler, Lookup.veto, Lookup.count, h]

end

/-! ## The say of the environment -/

theorem keys_table (hardware : Nat) : (table hardware).map Prod.fst = Key.all := rfl

theorem nodup_keys : Key.all.Nodup := by decide

theorem lookup_values (l : Lookup) {hardware : Nat} {k : Key} {f : Form}
    (h : (k, f) ∈ table hardware) :
    (l.values hardware).lookup k = some (l.value k f) := by
  have hkeys : (l.values hardware).map Prod.fst = Key.all := by
    rw [Lookup.values, List.map_map]
    exact keys_table hardware
  exact lookup_of_mem (hkeys ▸ nodup_keys) (List.mem_map_of_mem h)

theorem get?_ne_empty (env : Environment) (name : Bytes) : env.get? name ≠ some [] := by
  unfold Environment.get?
  cases env.bindings.find? (·.1 == name) with
  | none => nofun
  | some binding =>
    show (if binding.2.isEmpty then none else some binding.2) ≠ some []
    split
    · nofun
    · next hsome => exact fun h => hsome (by rw [Option.some.inj h]; rfl)

theorem lookup?_upper (env : Environment) (rest : Bytes) :
    env.lookup? (Environment.upper ++ rest) =
      (env.get? (Environment.upper ++ rest)).or (env.get? (Environment.lower ++ rest)) := by
  have hother : Environment.otherSpelling? (Environment.upper ++ rest) =
      some (Environment.lower ++ rest) := by
    unfold Environment.otherSpelling?
    rw [if_pos (List.isPrefixOf_iff_prefix.mpr (List.prefix_append _ _)), List.drop_left]
  unfold Environment.lookup?
  rw [hother]
  cases env.get? (Environment.upper ++ rest) <;> rfl

theorem var_eq {k : Key} (hk : k ∈ Key.all) : ∃ rest, k.var = Environment.upper ++ rest := by
  have hupper : ∀ k ∈ Key.all, Environment.upper.isPrefixOf k.var = true := by decide
  obtain ⟨rest, hrest⟩ := List.isPrefixOf_iff_prefix.mp (hupper k hk)
  exact ⟨rest, hrest.symm⟩

section

variable {document : Document} {env env' : Environment} {k : Key} {f : Form}

/-- A setting that the document has is read there, and the environment is not asked. -/
theorem value_of_present {raw : Bytes} (h : document.get? k.group k.name = some raw) :
    Lookup.value ⟨document, env⟩ k f = (f.ofDocument? raw).getD f.default := by
  unfold Lookup.value
  rw [h]

/-- A setting that the document does not have is read in its variable. -/
theorem value_of_absent (h : document.has k.group k.name = false) :
    Lookup.value ⟨document, env⟩ k f = ((env.lookup? k.var).bind f.ofVariable?).getD f.default := by
  unfold Lookup.value
  rw [Option.isSome_eq_false_iff.mp h |> Option.isNone_iff_eq_none.mp]

/-- Two environments give the same values if they say the same about every key that the document
does not have. -/
theorem values_congr {hardware : Nat}
    (h : ∀ k f, (k, f) ∈ table hardware → document.has k.group k.name = false →
      (env.lookup? k.var).bind f.ofVariable? = (env'.lookup? k.var).bind f.ofVariable?) :
    Lookup.values ⟨document, env⟩ hardware = Lookup.values ⟨document, env'⟩ hardware := by
  apply List.map_congr_left
  rintro ⟨k, f⟩ hentry
  cases hget : document.get? k.group k.name with
  | some raw => rw [value_of_present hget, value_of_present hget]
  | none =>
    have habsent : document.has k.group k.name = false := by
      rw [Document.has, hget]
      rfl
    rw [value_of_absent habsent, value_of_absent habsent, h k f hentry habsent]

end

/-- **The environment fills gaps only.** Two environments that give the same values to the variables
of the keys that a document does not have lead to the same settings or to the same problem; a
variable that cannot be read is as good as an unset one. A key of the document has the value that
stands there, or its default if that cannot be read; any other key whose variable is unset or cannot
be read has its default, as `Form.default` gives it. Variables are looked up in upper case first. -/
theorem environment_fills_gaps_only (source : Bytes) (hardware : Nat) :
    (∀ env env',
      (∀ k ∈ Key.all, (Document.ofBytes source).has k.group k.name = false →
        env.lookup? k.var = env'.lookup? k.var) →
        ofBytes env hardware source = ofBytes env' hardware source) ∧
      (∀ env env',
        (∀ k f, (k, f) ∈ table hardware → (Document.ofBytes source).has k.group k.name = false →
          (env.lookup? k.var).bind f.ofVariable? = (env'.lookup? k.var).bind f.ofVariable?) →
        ofBytes env hardware source = ofBytes env' hardware source) ∧
      (∀ env s, ofBytes env hardware source = .ok s → ∀ k f, (k, f) ∈ table hardware →
        (∀ raw, (Document.ofBytes source).get? k.group k.name = some raw →
          s.held.lookup k = some ((f.ofDocument? raw).getD f.default)) ∧
        ((Document.ofBytes source).has k.group k.name = false →
          (env.lookup? k.var).bind f.ofVariable? = none →
          s.held.lookup k = some f.default)) ∧
      (∀ (env : Environment), ∀ k ∈ Key.all, ∃ rest, k.var = Environment.upper ++ rest ∧
        env.lookup? k.var = (env.get? (Environment.upper ++ rest)).or
          (env.get? (Environment.lower ++ rest))) ∧
      (∀ (env : Environment) name, env.get? name ≠ some []) := by
  refine ⟨fun env env' h => resolve_congr (values_congr ?_), fun env env' h =>
    resolve_congr (values_congr h), ?_, ?_, get?_ne_empty⟩
  · -- the variable of a key is all that is read of the environment for it
    intro k f hentry habsent
    rw [h k (keys_table hardware ▸ List.mem_map_of_mem hentry) habsent]
  · intro env s hs k f hentry
    rw [← (resolve_eq_ok_iff.mp hs).2.1, lookup_values _ hentry]
    refine ⟨fun raw hraw => by rw [value_of_present hraw], fun habsent hunread => ?_⟩
    rw [value_of_absent habsent, hunread]
    rfl
  · intro env k hk
    obtain ⟨rest, hrest⟩ := var_eq hk
    exact ⟨rest, hrest, by rw [hrest]; exact lookup?_upper env rest⟩

theorem exists_ok {r : Except Problem Settings} (h : r.isOk = true) : ∃ s, r = .ok s := by
  cases r with
  | ok s => exact ⟨s, rfl⟩
  | error p => cases h

/-- A document that has one key, whose value cannot be read. -/
def unreadable : Bytes := text "[pool]\nmin_workers = many\n"

/-- An environment that speaks about that key and about two others, of which one has its name under
`Environment.lower` and one a value that cannot be read. -/
def talkative : Environment :=
  ⟨[(text "CLIFFGUARD_MIN_WORKERS", text "7"), (text "cliffguard_MAX_WORKERS", text "9"),
    (text "CLIFFGUARD_CLIFF_DROP", text "steep")]⟩

/-- The same without the key of the document. The name under `Environment.upper` is set to nothing,
so that the one under `Environment.lower` still counts. -/
def reserved : Environment :=
  ⟨[(text "CLIFFGUARD_MAX_WORKERS", []), (text "cliffguard_MAX_WORKERS", text "9"),
    (text "CLIFFGUARD_CLIFF_DROP", text "steep")]⟩

/-- Nothing but the variable that can be read. -/
def terse : Environment := ⟨[(text "cliffguard_MAX_WORKERS", text "9")]⟩

theorem environment_fills_gaps_only_unreadable :
    ofBytes talkative 4 unreadable = ofBytes reserved 4 unreadable ∧
      ofBytes talkative 4 unreadable = ofBytes terse 4 unreadable ∧
      ∃ s, ofBytes talkative 4 unreadable = .ok s ∧ s.held.lookup .minWorkers = some (.int 1) ∧
        s.held.lookup .maxWorkers = some (.int 9) ∧ s.held.lookup .cliffDrop =
          some (.float 0.2) := by
  obtain ⟨hagree, hread, hsingle, -⟩ := environment_fills_gaps_only unreadable 4
  refine ⟨hagree _ _ (by decide), hread _ _ ?_, ?_⟩
  · have hall : ∀ entry ∈ table 4,
        (Document.ofBytes unreadable).has entry.1.group entry.1.name = false →
          talkative.lookup? entry.1.var = terse.lookup? entry.1.var ∨
            ((talkative.lookup? entry.1.var).bind entry.2.ofVariable?).isNone = true ∧
              ((terse.lookup? entry.1.var).bind entry.2.ofVariable?).isNone = true := by
      decide
    intro k f hentry habsent
    rcases hall (k, f) hentry habsent with hsame | ⟨hnone, hnone'⟩
    · rw [hsame]
    · rw [Option.isNone_iff_eq_none.mp hnone, Option.isNone_iff_eq_none.mp hnone']
  · obtain ⟨s, hs⟩ := exists_ok (by decide : (ofBytes talkative 4 unreadable).isOk = true)
    refine ⟨s, hs, ?_, ?_, ?_⟩
    · exact (hsingle _ s hs .minWorkers (.int 1) (by simp [table])).1 (text "many") (by decide)
    · have hentry : (Key.maxWorkers, Form.int (Pool.Config.defaultMaxWorkers 4)) ∈ table 4 := by
        simp [table]
      rw [← (resolve_eq_ok_iff.mp hs).2.1, lookup_values _ hentry, value_of_absent (by decide)]
      rfl
    · exact (hsingle _ s hs .cliffDrop (.float 0.2) (by simp [table])).2 (by decide) rfl

end Headroom.Settings
