import Headroom.Proofs.Collecting

/-!
# Metrics of pools and profiles

What a collector finds in the metrics of a pool and of a profiling run, whatever bytes the label
has.

* **`Shaped`**: the two forms that the series of a family have. Both are labelled, and their values
  are distinct if those of the second label are.
* **`headers_poolFamilies`**, **`headers_profileFamilies`**: the wording of the families does not
  depend on what was measured, so that it is checked once.
* **`collected_of_legible`**: the text of families with distinct series, as a collector has it.
* **`label_eq_of_render_eq`**: the label can be told from the text.
* **`metrics_are_collected`**: all of this for the metrics of pools and profiles, with the counts
  they give.
-/

namespace Headroom

theorem Bytes.ofInt_injective : Function.Injective Bytes.ofInt := by
  have hinjective : ∀ {m n : Nat}, ofNat m = ofNat n → m = n := by
    intro m n h
    rw [← digitsValue_ofNat m, h, digitsValue_ofNat]
  -- a minus sign is no digit
  have hsign : ∀ m n : Nat, ofNat m ≠ 45 :: ofNat n := by
    intro m n h
    have hdigit : isDigit 45 = true := isDigit_of_mem_ofNat (h ▸ List.mem_cons_self)
    cases hdigit
  intro m n h
  cases m with
  | ofNat m =>
    cases n with
    | ofNat n => exact congrArg _ (hinjective h)
    | negSucc n => exact absurd h (hsign m (n + 1))
  | negSucc m =>
    cases n with
    | ofNat n => exact absurd h.symm (hsign n (m + 1))
    | negSucc n => exact congrArg _ (Nat.succ.inj (hinjective (List.cons.inj h).2))

namespace Exposition

variable {label : Bytes}

/-! ## The series of a family -/

/-- The series of a family as they are written: a single one with the label, or one for each of some
things, which are distinct under the condition `distinct`. Nothing else of a family matters to a
collector. -/
inductive Shaped (label : Bytes) (distinct : Prop) : List Series → Prop
  | one {key : Bytes} (hkey : isName key = true) (v : Value) :
      Shaped label distinct [⟨[(key, label)], v⟩]
  | each {key key' : Bytes} (hkey : isName key = true) (hkey' : isName key' = true) {α : Type}
      {all : List α} {name : α → Bytes} (hdistinct : distinct → (all.map name).Nodup)
      (value : α → Value) :
      Shaped label distinct (all.map fun a => ⟨[(key, label), (key', name a)], value a⟩)

namespace Shaped

variable {distinct : Prop} {series : List Series}

/-- Every series of a family that is `Shaped` has the label in the first place. -/
theorem labelled (h : Shaped label distinct series) : ∀ s ∈ series, Labelled label s.labels := by
  cases h with
  | one hkey v => exact List.forall_mem_singleton.mpr (.one hkey)
  | each hkey hkey' hdistinct value =>
    intro s hs
    obtain ⟨a, -, rfl⟩ := List.mem_map.mp hs
    exact .two hkey hkey' _

/-- No two series of a family have the same label values, where the things they are about are
distinct. -/
theorem nodup_values (h : Shaped label distinct series) (hd : distinct) :
    (series.map Series.values).Nodup := by
  cases h with
  | one hkey v => exact List.nodup_singleton _
  | @each _ _ _ _ _ all name hdistinct value =>
    have hinjective : Function.Injective fun b : Bytes => [label, b] :=
      fun b b' heq => by simpa using heq
    have hvalues := (hdistinct hd).map hinjective
    rw [List.map_map] at hvalues ⊢
    exact hvalues

end Shaped

/-! ## The wording of a family -/

/-- The header of each family: its name, its type and its help text. They depend on which families
are written and not on what was measured. -/
def headers (fs : List Family) : List (Bytes × Bytes × Bytes) :=
  fs.map fun f => (f.name, f.help, f.type)

/-- Headers that a collector can read, no name twice. It is decidable, so for the families of this
library it is settled by evaluation, once for the pool and once for the profile. -/
def Worded (headers : List (Bytes × Bytes × Bytes)) : Prop :=
  (headers.map Prod.fst).Nodup ∧ ∀ header ∈ headers, isName header.1 = true ∧ 10 ∉ header.2.1 ∧
    10 ∉ header.2.2

instance (headers : List (Bytes × Bytes × Bytes)) : Decidable (Worded headers) :=
  inferInstanceAs (Decidable (_ ∧ _))

theorem Worded.sublist {hs hs' : List (Bytes × Bytes × Bytes)} (h : Worded hs')
    (hsub : hs.Sublist hs') : Worded hs :=
  ⟨h.1.sublist (hsub.map Prod.fst), fun header hmem => h.2 header (hsub.subset hmem)⟩

theorem Worded.nodup_names {fs : List Family} (h : Worded (headers fs)) :
    (fs.map Family.name).Nodup := by
  have hnames := h.1
  rw [headers, List.map_map] at hnames
  exact hnames

/-- Families with readable headers, all of them `Shaped`, are legible line by line. -/
theorem Worded.legible {fs : List Family} (h : Worded (headers fs)) {distinct : Prop}
    (hshaped : ∀ f ∈ fs, Shaped label distinct f.series) : ∀ f ∈ fs, f.Legible label := by
  intro f hf
  obtain ⟨hname, hhelp, htype⟩ := h.2 _ (List.mem_map_of_mem hf)
  exact ⟨hname, hhelp, htype, (hshaped f hf).labelled⟩

/-! ## Collected texts -/

/-- What a collector has from the text of metrics: every line of `source`, samples in groups behind
their headers, the label in each of them, and one value for each series. Sizes are written as words,
so that those which fit are read. -/
structure Collected (label : Bytes) (counts : List ((Bytes × List Bytes) × Nat))
    (sizes : List ((Bytes × List Bytes) × Int)) (source : Bytes) (ls : List Line) : Prop where
  read : read? source = some ls
  written : source = ls.flatMap (·.render ++ [10])
  labelled : ∀ name labels value, .sample name labels value ∈ ls →
    (labels.map Prod.snd).head? = some label
  grouped : Grouped ls
  distinct : ((entries ls).map Prod.fst).Nodup
  counts : ∀ series n, (series, n) ∈ counts → count? ls series = some n
  sizes : ∀ series n, (series, n) ∈ sizes → 0 ≤ n → n < UInt64.size →
    count? ls series = some n.toNat

theorem labelled_of_legible {fs : List Family} (h : ∀ f ∈ fs, f.Legible label) {name value : Bytes}
    {labels : List (Bytes × Bytes)} (hmem : .sample name labels value ∈ fs.flatMap Family.lines) :
    (labels.map Prod.snd).head? = some label := by
  obtain ⟨f, hf, hline⟩ := List.mem_flatMap.mp hmem
  cases (h f hf).lines hline with
  | sample _ hlabels _ => exact hlabels.head?_values

/-- A size that fits into a word of 64 bits is written by `word` as it is. -/
theorem word_of_fits {n : Int} (h0 : 0 ≤ n) (h : n < UInt64.size) : word n = .count n.toNat := by
  rw [word, Int.emod_eq_of_lt h0 h]

/-- A collector has what was told, if the lines are `Legible` and no series is told twice. The
statements about the pool and about the profile are two cases of this. -/
theorem collected_of_legible {fs : List Family} {counts : List ((Bytes × List Bytes) × Nat)}
    {sizes : List ((Bytes × List Bytes) × Int)} (hlegible : ∀ f ∈ fs, f.Legible label)
    (hnodup : ((told fs).map Prod.fst).Nodup)
    (hcounts : ∀ entry ∈ counts, (entry.1, .count entry.2) ∈ told fs)
    (hsizes : ∀ entry ∈ sizes, (entry.1, word entry.2) ∈ told fs) :
    Collected label counts sizes (render fs) (fs.flatMap Family.lines) where
  read := read?_render hlegible
  written := render_eq_lines fs
  labelled _ _ _ := labelled_of_legible hlegible
  grouped := grouped_lines fs
  distinct := by
    rw [entries_lines, List.map_map]
    exact hnodup
  counts _ _ h := count?_of_told hnodup (hcounts _ h)
  sizes series n h h0 hsize := count?_of_told hnodup (word_of_fits h0 hsize ▸ hsizes _ h)

/-- The label stands in every sample, so that one sample is enough to tell it, and two texts with
different labels differ. -/
theorem label_eq_of_render_eq {label' : Bytes} {fs fs' : List Family}
    (h : ∀ f ∈ fs, f.Legible label) (h' : ∀ f ∈ fs', f.Legible label') {f : Family} (hf : f ∈ fs)
    {s : Series} (hs : s ∈ f.series) (heq : render fs = render fs') : label = label' := by
  have hlines : fs.flatMap Family.lines = fs'.flatMap Family.lines := by
    apply Option.some.inj
    rw [← read?_render h, ← read?_render h', heq]
  have hline : .sample f.name s.labels s.value.render ∈ f.lines :=
    List.mem_cons_of_mem _ (List.mem_cons_of_mem _ (List.mem_map_of_mem hs))
  have hmem := List.mem_flatMap.mpr ⟨f, hf, hline⟩
  have hlabel := labelled_of_legible h hmem
  rw [labelled_of_legible h' (hlines ▸ hmem)] at hlabel
  exact (Option.some.inj hlabel).symm

/-! ## Pools -/

section
open Pool Scaling

variable (s : Snapshot)

theorem shaped_poolFamilies : ∀ f ∈ poolFamilies s label, Shaped label True f.series := by
  have one (v : Value) : Shaped label True [⟨[(text "pool", label)], v⟩] := .one (by decide) v
  have states : Shaped label True
      (Phase.all.map fun p => ⟨[(text "pool", label), (text "state", p.name)],
        truth (s.phase == some p)⟩) :=
    .each (by decide) (by decide) (fun _ => by decide) _
  have trends : Shaped label True
      (Trend.all.map fun t => ⟨[(text "pool", label), (text "scaling", t.name)],
        truth (s.trend == some t)⟩) :=
    .each (by decide) (by decide) (fun _ => by decide) _
  -- in the order of the families
  simp only [poolFamilies, List.forall_mem_cons]
  exact ⟨one _, one _, one _, one _, one _, one _, one _, one _, one _, states, trends, one _,
    List.forall_mem_nil _⟩

theorem headers_poolFamilies : headers (poolFamilies s label) = headers (poolFamilies {} []) := rfl

theorem worded_poolFamilies : Worded (headers (poolFamilies s label)) := by
  rw [headers_poolFamilies]
  decide +kernel

/-- The counts of a snapshot by series: what `count?` has to find in the text of `pool`. -/
def poolCounts (label : Bytes) : List ((Bytes × List Bytes) × Nat) :=
  [((text "cliffguard_pool_blocking_ratio_samples", [label]), s.beta.count),
    ((text "cliffguard_pool_blocking_ratio_sufficient", [label]), if s.beta.sufficient then 1
      else 0),
    ((text "cliffguard_pool_queued_tasks", [label]), s.queued),
    ((text "cliffguard_pool_completed_tasks_total", [label]), s.completed),
    ((text "cliffguard_pool_failed_tasks_total", [label]), s.failed),
    ((text "cliffguard_pool_snapshot_seq", [label]), s.seq)]
    ++ (Phase.all.map fun p => ((text "cliffguard_pool_state", [label, p.name]), if s.phase =
      some p then 1 else 0))
    ++ (Trend.all.map fun t => ((text "cliffguard_pool_scaling", [label, t.name]), if s.trend =
      some t then 1 else 0))

/-- The sizes of a snapshot by series. They are signed in a snapshot and words in the text. -/
def poolSizes (label : Bytes) : List ((Bytes × List Bytes) × Int) :=
  [((text "cliffguard_pool_active_threads", [label]), s.active)]

theorem counts_poolFamilies :
    ∀ entry ∈ poolCounts s label, (entry.1, .count entry.2) ∈ told (poolFamilies s label) := by
  simp [poolCounts, told, poolFamilies, gauge, counter, family, Series.values, truth, Phase.all,
    Trend.all]

theorem sizes_poolFamilies :
    ∀ entry ∈ poolSizes s label, (entry.1, word entry.2) ∈ told (poolFamilies s label) := by
  simp [poolSizes, told, poolFamilies, gauge, family, Series.values]

theorem legible_poolFamilies (label : Bytes) : ∀ f ∈ poolFamilies s label, f.Legible label :=
  (worded_poolFamilies s).legible (shaped_poolFamilies s)

/-- The metrics of a pool are `Collected` as they are in the snapshot. -/
theorem collected_pool (label : Bytes) :
    Collected label (poolCounts s label) (poolSizes s label) (pool s label)
      ((poolFamilies s label).flatMap Family.lines) := by
  apply collected_of_legible (legible_poolFamilies s label) _ (counts_poolFamilies s)
    (sizes_poolFamilies s)
  exact nodup_told (worded_poolFamilies s).nodup_names fun f hf =>
    (shaped_poolFamilies s f hf).nodup_values trivial

end

/-! ## Profiles -/

section
open Profile

variable (a : Analysis Float)

/-- A profiling run has families with one value, and families with one for each level, labelled by
the number of threads. -/
theorem shaped_profileFamilies :
    ∀ f ∈ profileFamilies a label, Shaped label (a.levels.map Level.threads).Nodup f.series := by
  have one (v : Value) :
      Shaped label (a.levels.map Level.threads).Nodup [⟨[(text "workload", label)], v⟩] :=
    .one (by decide) v
  have each (v : Level Float → Value) : Shaped label (a.levels.map Level.threads).Nodup
      (a.levels.map fun l => ⟨[(text "workload", label), (text "threads", Bytes.ofInt l.threads)],
        v l⟩) := by
    refine .each (by decide) (by decide) (fun hdistinct => ?_) v
    have htexts := hdistinct.map Bytes.ofInt_injective
    rwa [List.map_map] at htexts
  unfold profileFamilies
  refine List.forall_mem_append.mpr
    ⟨List.forall_mem_append.mpr ⟨List.forall_mem_append.mpr ⟨?_, ?_⟩, ?_⟩, ?_⟩
  · exact List.forall_mem_singleton.mpr (one _)
  · exact List.forall_mem_map.mpr fun _ _ => one _
  · exact List.forall_mem_cons.mpr ⟨one _, List.forall_mem_singleton.mpr (one _)⟩
  · split
    · exact List.forall_mem_nil _
    · simp only [List.forall_mem_cons]
      exact ⟨each _, each _, each _, each _, List.forall_mem_nil _⟩

/-- A run with everything there is to tell. The headers of every other run are among its headers. -/
def thorough : Analysis Float :=
  { levels := [⟨1, 0, 0, 0, 0, 0, 0⟩], optimal := 1, cliff := some 1, severity := 0
    complete := true, failure := none }

/-- Families that depend on a cliff or on a failure are left out, in place: what is left is a
sublist of the headers of `thorough`. -/
theorem headers_profileFamilies :
    (headers (profileFamilies a label)).Sublist (headers (profileFamilies thorough [])) := by
  -- what is there for every run, the cliff, and what is there if a level was measured
  unfold profileFamilies headers
  simp only [List.map_append]
  refine ((List.Sublist.refl _).append ?_).append (.refl _) |>.append ?_
  · cases a.cliff with
    | none => exact List.nil_sublist _
    | some threads => exact .refl _
  · split
    · exact List.nil_sublist _
    · exact .refl _

theorem worded_profileFamilies : Worded (headers (profileFamilies a label)) := by
  have hthorough : Worded (headers (profileFamilies thorough [])) := by decide +kernel
  exact hthorough.sublist (headers_profileFamilies a)

/-- The counts of a profiling run by series: what `count?` has to find in the text of `profile`. -/
def profileCounts (label : Bytes) : List ((Bytes × List Bytes) × Nat) :=
  ((text "cliffguard_profile_complete", [label]), if a.complete then 1 else 0)
    :: a.levels.map fun l =>
      ((text "cliffguard_profile_operations_total", [label, Bytes.ofInt l.threads]), l.operations)

def profileSizes (label : Bytes) : List ((Bytes × List Bytes) × Int) :=
  ((text "cliffguard_profile_optimal_threads", [label]), a.optimal)
    :: a.cliff.toList.map fun threads =>
      ((text "cliffguard_profile_cliff_threads", [label]), threads)

theorem counts_profileFamilies :
    ∀ entry ∈ profileCounts a label, (entry.1, .count entry.2) ∈ told
      (profileFamilies a label) := by
  refine List.forall_mem_cons.mpr ⟨?_, List.forall_mem_map.mpr fun l hl => ?_⟩
  · simp [told, profileFamilies, gauge, counter, family, Series.values, truth]
  · have hsome : a.levels.isEmpty = false := by
      rw [List.isEmpty_eq_false_iff]
      exact List.ne_nil_of_mem hl
    have hfamily : counter "cliffguard_profile_operations_total"
        "Invocations completed per thread count"
          (a.levels.map fun l =>
            ⟨[(text "workload", label), (text "threads", Bytes.ofInt l.threads)],
              .count l.operations⟩)
          ∈ profileFamilies a label := by simp [profileFamilies, hsome]
    exact List.mem_flatMap.mpr ⟨_, hfamily, List.mem_map.mpr ⟨_, List.mem_map_of_mem hl, rfl⟩⟩

theorem sizes_profileFamilies :
    ∀ entry ∈ profileSizes a label, (entry.1, word entry.2) ∈ told (profileFamilies a label) := by
  refine List.forall_mem_cons.mpr ⟨?_, List.forall_mem_map.mpr fun threads hthreads => ?_⟩
  · simp [told, profileFamilies, gauge, counter, family, Series.values]
  · have hcliff : a.cliff = some threads := by simpa using hthreads
    simp [told, profileFamilies, gauge, counter, family, Series.values, hcliff]

theorem legible_profileFamilies (label : Bytes) : ∀ f ∈ profileFamilies a label, f.Legible label :=
  (worded_profileFamilies a).legible (shaped_profileFamilies a)

/-- The metrics of a profiling run are collected as they are in the analysis. Levels with the same
number of threads would be told as one series, which `hdistinct` excludes. -/
theorem collected_profile (label : Bytes) (hdistinct : (a.levels.map Level.threads).Nodup) :
    Collected label (profileCounts a label) (profileSizes a label) (profile a label)
      ((profileFamilies a label).flatMap Family.lines) := by
  apply collected_of_legible (legible_profileFamilies a label) _ (counts_profileFamilies a)
    (sizes_profileFamilies a)
  exact nodup_told (worded_profileFamilies a).nodup_names fun f hf =>
    (shaped_profileFamilies a f hf).nodup_values hdistinct

end

/-! ## Both -/

/-- **Metrics can be collected.** Whatever bytes the label has, the metrics of every snapshot are
`Collected`: every line is understood and none is lost, every sample has the label, stands under its
header and is the only one of its series, and the counts are those of the snapshot. So are the
metrics of every profiling run that measured no number of threads twice. Different labels give
different texts, also if what was measured differs. -/
theorem metrics_are_collected (label : Bytes) :
    (∀ s : Pool.Snapshot,
      (∃ ls, Collected label (poolCounts s label) (poolSizes s label) (pool s label) ls) ∧
        ∀ s' label', pool s label = pool s' label' → label = label') ∧
    ∀ a : Profile.Analysis Float,
      ((a.levels.map Profile.Level.threads).Nodup →
        ∃ ls, Collected label (profileCounts a label) (profileSizes a label) (profile a label) ls) ∧
      ∀ a' label', profile a label = profile a' label' → label = label' := by
  constructor
  -- the first family of either kind has one series, which is enough to tell the label
  · intro s
    refine ⟨⟨_, collected_pool s label⟩, fun s' label' heq => ?_⟩
    exact label_eq_of_render_eq (legible_poolFamilies s label) (legible_poolFamilies s' label')
      List.mem_cons_self
      List.mem_cons_self heq
  · intro a
    refine ⟨fun hdistinct => ⟨_, collected_profile a label hdistinct⟩, fun a' label' heq => ?_⟩
    exact label_eq_of_render_eq (legible_profileFamilies a label)
      (legible_profileFamilies a' label') List.mem_cons_self
      List.mem_cons_self heq

/-- A label that looks like the end of a line, and like text that was escaped. -/
def hostile : Bytes := text "a\"\x7d 1\n\\n\\\""

def collapsing : Profile.Analysis Float :=
  { levels := [⟨1, 100.5, 9, 5, 20, 20, 7⟩, ⟨4, 12.25, 80, 6, 30, 30, 7⟩]
    optimal := 1
    cliff := some 4
    severity := 0.875
    complete := true
    failure := none }

theorem metrics_are_collected_hostile :
    (collapsing.levels.map Profile.Level.threads).Nodup ∧
      (∃ ls, read? (profile collapsing hostile) = some ls ∧
        count? ls (text "cliffguard_profile_cliff_threads", [hostile]) = some 4 ∧
        count? ls (text "cliffguard_profile_operations_total", [hostile, text "4"]) = some 30) ∧
      profile collapsing hostile ≠ profile collapsing (escape hostile) := by
  have hdistinct : (collapsing.levels.map Profile.Level.threads).Nodup := by decide
  obtain ⟨hcollected, hlabel⟩ := (metrics_are_collected hostile).2 collapsing
  obtain ⟨ls, h⟩ := hcollected hdistinct
  have hcliff := h.sizes (text "cliffguard_profile_cliff_threads", [hostile]) 4
    (by simp [profileSizes, collapsing]) (by decide) (by decide)
  have hoperations := h.counts (text "cliffguard_profile_operations_total",
    [hostile, Bytes.ofInt 4]) 30
    (by simp [profileCounts, collapsing])
  refine ⟨hdistinct, ⟨ls, h.read, hcliff, hoperations⟩, fun heq => ?_⟩
  exact absurd (hlabel collapsing (escape hostile) heq) (by decide)

end Exposition

end Headroom
