import Headroom.Proofs.Samples
import Headroom.Proofs.Usability
import Mathlib.Algebra.BigOperators.Group.List.Basic
import Mathlib.Algebra.Order.BigOperators.Group.List
import Mathlib.Algebra.Order.Group.Int
import Mathlib.Algebra.Ring.Int.Defs
import Mathlib.Data.List.DropRight
import Mathlib.Data.List.Rotate
import Mathlib.Order.Bounds.OrderIso

/-!
# The window shows the last samples

A window overwrites its slots in turn, so that they hold the last samples, but not in the order in
which these came. An estimate goes over the slots as they lie. This module says that it is still the
estimate of the last samples.

* **`Window.Holds.perm_rtake`**: the slots are the last samples that entered, rotated.
* **`Sample.span_eq`**: the span of some samples, from the earliest beginning to the latest end.
* **`Estimate.ofSamples_perm`**: an estimate does not depend on the order of its samples.
* **`Window.Config.AgeFits`**, **`Window.Config.ageLimit_of_fits`**: a limit on the age that is the
  same number of nanoseconds in a word of 64 bits.
* **`Window.estimate_rests_on_last`**: for any uses of a window, what its estimate is at any moment,
  if the limit on the age fits, and what goes wrong if it does not.
-/

namespace Headroom

/-! ## Samples in any order -/

/-- The running maximum of a fold is the greatest of all that it has met. -/
theorem isGreatest_foldl_max {β : Type} [LinearOrder β] (f : Sample → β) (m : β)
    (samples : List Sample) :
    IsGreatest {t | t = m ∨ ∃ s ∈ samples, f s = t} (samples.foldl (fun t s => max t (f s)) m) := by
  induction samples generalizing m with
  | nil => exact ⟨.inl rfl, by rintro _ (rfl | ⟨_, hs, _⟩); exacts [le_refl _, nomatch hs]⟩
  | cons s rest ih =>
    obtain ⟨hmet, hupper⟩ := ih (max m (f s))
    have hmax : max m (f s) ≤ rest.foldl (fun t s => max t (f s)) (max m (f s)) := hupper (.inl rfl)
    refine ⟨?_, ?_⟩
    · rcases hmet with hfirst | ⟨x, hx, hlast⟩
      · rcases max_choice m (f s) with hm | hs
        · exact .inl (hfirst.trans hm)
        · exact .inr ⟨s, List.mem_cons_self, hs.symm.trans hfirst.symm⟩
      · exact .inr ⟨x, List.mem_cons_of_mem s hx, hlast⟩
    · rintro _ (rfl | ⟨x, hx, rfl⟩)
      · exact (le_max_left _ _).trans hmax
      · rcases List.mem_cons.mp hx with rfl | hx
        · exact (le_max_right _ _).trans hmax
        · exact hupper (.inr ⟨x, hx, rfl⟩)

namespace Sample

/-- The span of some samples is the time from the earliest beginning to the latest end. -/
theorem span_eq {samples : List Sample} (h : samples ≠ []) :
    ∃ latest earliest, IsGreatest {t | ∃ s ∈ samples, s.finishedAt = t} latest ∧
      IsLeast {t | ∃ s ∈ samples, s.beganAt = t} earliest ∧ span samples = latest - earliest := by
  cases samples with
  | nil => exact absurd rfl h
  | cons s rest =>
    have hset {β : Type} (f : Sample → β) :
        {t | t = f s ∨ ∃ x ∈ rest, f x = t} = {t | ∃ x ∈ s :: rest, f x = t} := by
      ext t
      simp [eq_comm]
    have hlatest := isGreatest_foldl_max finishedAt s.finishedAt rest
    -- the least beginning is the greatest one in the order that is turned around
    have hearliest := isGreatest_foldl_max (OrderDual.toDual ∘ beganAt) (OrderDual.toDual s.beganAt)
      rest
    rw [hset finishedAt] at hlatest
    rw [← Function.comp_apply (f := OrderDual.toDual), hset] at hearliest
    exact ⟨_, _, hlatest, hearliest, rfl⟩

theorem span_perm {samples samples' : List Sample} (h : samples.Perm samples') :
    span samples = span samples' := by
  cases hsamples : samples with
  | nil =>
    rw [hsamples] at h
    rw [h.nil_eq]
  | cons s rest =>
    have hne : samples ≠ [] := by simp [hsamples]
    have hne' : samples' ≠ [] := fun hnil => hne (h.trans (.of_eq hnil)).eq_nil
    have hset {β : Type} (f : Sample → β) :
        {t | ∃ x ∈ samples', f x = t} = {t | ∃ x ∈ samples, f x = t} := by
      simp only [h.mem_iff]
    obtain ⟨latest, earliest, hlatest, hearliest, hspan⟩ := span_eq hne
    obtain ⟨latest', earliest', hlatest', hearliest', hspan'⟩ := span_eq hne'
    rw [hset] at hlatest' hearliest'
    rw [← hsamples, hspan, hspan', hlatest.unique hlatest', hearliest.unique hearliest']

theorem wall_le_span {samples : List Sample} {s : Sample} (hs : s ∈ samples) :
    s.wall ≤ span samples := by
  obtain ⟨latest, earliest, hlatest, hearliest, hspan⟩ := span_eq (List.ne_nil_of_mem hs)
  have hend : s.finishedAt ≤ latest := hlatest.2 ⟨s, hs, rfl⟩
  have hbegin : earliest ≤ s.finishedAt - s.wall := hearliest.2 ⟨s, hs, rfl⟩
  rw [hspan]
  omega

theorem foldl_add_eq_sum (f : Sample → Int) (samples : List Sample) :
    samples.foldl (fun t s => t + f s) 0 = (samples.map f).sum := by
  rw [List.sum_eq_foldl, List.foldl_map]

end Sample

namespace Estimate

/-- An estimate, `ofSamples`, does not depend on the order of its samples, so it does not matter
where in the ring they are. -/
theorem ofSamples_perm (minSamples : Nat) {samples samples' : List Sample}
    (h : samples.Perm samples') :
    ofSamples minSamples samples = ofSamples minSamples samples' := by
  have hsum (f : Sample → Int) :
      samples.foldl (fun t s => t + f s) 0 = samples'.foldl (fun t s => t + f s) 0 := by
    rw [Sample.foldl_add_eq_sum, Sample.foldl_add_eq_sum, (h.map f).sum_eq]
  simp only [ofSamples, hsum Sample.wall, hsum Sample.cpu, h.length_eq, Sample.span_perm h]

/-- Samples that took some time make an estimate as soon as there are enough of them. -/
theorem sufficient_ofSamples {minSamples : Nat} (hmin : 1 ≤ minSamples) {samples : List Sample}
    (h : ∀ s ∈ samples, 0 < s.wall) :
    (ofSamples minSamples samples).sufficient = decide (minSamples ≤ samples.length) := by
  have hsum : minSamples ≤ samples.length → 0 < (samples.map Sample.wall).sum := by
    intro hlen
    refine List.sum_pos _ (fun t ht => ?_) ?_
    · obtain ⟨s, hs, rfl⟩ := List.mem_map.mp ht
      exact h s hs
    · rw [ne_eq, List.map_eq_nil_iff, ← List.length_eq_zero_iff]
      omega
  simp only [ofSamples, Sample.foldl_add_eq_sum]
  by_cases hlen : minSamples ≤ samples.length
  · simp [hlen, hsum hlen]
  · simp [hlen]

end Estimate

namespace Window

/-! ## Slots and samples -/

/-- The place of a sample among the last `min n c` of `n`, counted from the slot that is next to be
overwritten. -/
theorem slot_of_recent {n c i : Nat} (hi : i < min n c) :
    (n - min n c + i) % c = (i + n % c) % min n c := by
  rcases Nat.lt_or_ge n c with hfree | hfull
  · rw [Nat.min_eq_left (Nat.le_of_lt hfree)] at hi ⊢
    rw [Nat.mod_eq_of_lt hfree, Nat.add_mod_right, Nat.mod_eq_of_lt hi, Nat.sub_self, Nat.zero_add,
      Nat.mod_eq_of_lt (by omega)]
  · rw [Nat.min_eq_right hfull, Nat.add_mod_mod, ← Nat.add_mod_right]
    congr 1
    omega

/-- The slots are the last samples that `entered`, as many as there is room for, from the one on
that is next to be overwritten. -/
theorem Holds.perm_rtake {w : Window} {entered : List Sample} (h : w.Holds entered) :
    w.slots.toList.Perm (entered.rtake w.size) := by
  have hsize : w.size = min entered.length w.config.capacity := h.size
  have hlength : w.slots.toList.length = w.size := Array.length_toList
  have hrotate : w.slots.toList.rotate w.next = entered.rtake w.size := by
    refine List.ext_getElem? fun i => ?_
    rw [List.rtake, List.getElem?_drop]
    by_cases hi : i < w.size
    · -- counted from the slot that is overwritten next, sample `i` lies in slot `i`
      have hslot := h.slots (entered.length - w.size + i) (by omega) (by omega)
      rw [List.getElem?_rotate (by omega), hlength, Array.getElem?_toList, h.next, hsize,
        ← slot_of_recent (by omega), ← hsize]
      exact hslot
    · rw [List.getElem?_eq_none (by rw [List.length_rotate]; omega),
        List.getElem?_eq_none (by omega)]
  rw [← hrotate]
  exact (List.rotate_perm _ _).symm

/-! ## Uses of a window -/

/-- What can be done to a window: record a sample, or reset it. -/
inductive Use
  | record (s : Sample)
  | reset

def use (w : Window) : Use → Window
  | .record s => w.record s
  | .reset => w.reset

def after (w : Window) (us : List Use) : Window := us.foldl use w

def Use.sample? : Use → Option Sample
  | .record s => some s
  | .reset => none

/-- The samples that were recorded, whether they entered or not. -/
def recorded (us : List Use) : List Sample := us.filterMap Use.sample?

/-- The samples that entered since the last reset: those with a positive duration, measured
or not. -/
def entered (us : List Use) : List Sample :=
  (recorded (us.rtakeWhile (·.sample?.isSome))).filter enters

theorem after_snoc (w : Window) (us : List Use) (u : Use) :
    w.after (us ++ [u]) = (w.after us).use u := by
  unfold after
  rw [List.foldl_append]
  rfl

theorem recorded_snoc (us : List Use) (u : Use) :
    recorded (us ++ [u]) = recorded us ++ u.sample?.toList := by
  cases u <;> simp [recorded, Use.sample?]

theorem config_use (w : Window) (u : Use) : (w.use u).config = w.config := by
  cases u with
  | record s => exact config_record w s
  | reset => rfl

theorem config_after (w : Window) (us : List Use) : (w.after us).config = w.config := by
  induction us generalizing w with
  | nil => rfl
  | cons u us ih => exact (ih (w.use u)).trans (config_use w u)

/-- A reset leaves nothing, and a sample that enters comes after those that have. -/
theorem entered_snoc (us : List Use) (u : Use) :
    entered (us ++ [u]) =
      match u with
      | .record s => if enters s then entered us ++ [s] else entered us
      | .reset => [] := by
  cases u with
  | reset => rw [entered, List.rtakeWhile_concat_neg _ _ _ (by simp [Use.sample?])]; rfl
  | record s =>
    rw [entered, List.rtakeWhile_concat_pos _ _ _ rfl, recorded_snoc, List.filter_append, entered]
    by_cases hs : enters s = true
    · simp [Use.sample?, hs]
    · simp [Use.sample?, hs]

/-- The window holds what has `entered`, after any uses; a reset makes it hold nothing. -/
theorem holds_after {config : Config} (hroom : 0 < config.capacity) (us : List Use) :
    ((empty config).after us).Holds (entered us) := by
  induction us using List.reverseRecOn with
  | nil => exact holds_empty config
  | append_singleton us u ih =>
    have hroom' : 0 < ((empty config).after us).config.capacity := by rwa [config_after]
    rw [after_snoc, entered_snoc]
    cases u with
    | reset =>
      have h := holds_empty ((empty config).after us).config
      exact ⟨h.size, h.next, h.slots⟩
    | record s =>
      dsimp only [use]
      split
      · next hs => exact ih.record hroom' hs
      · next hs =>
        rw [record_of_not_enters hs]
        exact ⟨ih.size, ih.next, ih.slots⟩

/-- The two counts are of all samples that were recorded, whether there was a reset since or not. -/
theorem counts_after (w : Window) (us : List Use) :
    (w.after us).discarded = w.discarded + (recorded us).countP (fun s => s.wall ≤ 0) ∧
      (w.after us).unmeasured = w.unmeasured + (recorded us).countP (fun s =>
        0 < s.wall && !s.measured) := by
  induction us generalizing w with
  | nil => exact ⟨rfl, rfl⟩
  | cons u us ih =>
    obtain ⟨hdiscarded, hunmeasured⟩ := ih (w.use u)
    show ((w.use u).after us).discarded = _ ∧ ((w.use u).after us).unmeasured = _
    rw [hdiscarded, hunmeasured]
    cases u with
    | reset => exact ⟨rfl, rfl⟩
    | record s =>
      have hcons : recorded (.record s :: us) = s :: recorded us := rfl
      rw [hcons, List.countP_cons, List.countP_cons]
      -- a sample is counted on one of the two grounds, never on both
      by_cases hs : enters s = true
      · have hpos : 0 < s.wall := of_decide_eq_true hs
        have hnot : ¬s.wall ≤ 0 := Int.not_le.mpr hpos
        rw [use, record_of_enters hs]
        cases s.measured with
        | true => simp [hpos, hnot]
        | false => simp [hpos, hnot, Nat.add_assoc, Nat.add_comm 1]
      · have hnot : ¬0 < s.wall := fun hpos => hs (decide_eq_true hpos)
        have hneg : s.wall ≤ 0 := Int.not_lt.mp hnot
        rw [use, record_of_not_enters hs]
        simp [hneg, hnot, Nat.add_assoc, Nat.add_comm 1]

/-! ## The estimate -/

/-- Whether a sample takes part in an estimate: it was measured and, if there is a limit on the age,
is not older. Ages are exact here, while the program has them in words. -/
def Timely (config : Config) (now : Int) (s : Sample) : Prop :=
  s.measured = true ∧ (0 < config.maxAgeMs → now - s.finishedAt ≤ config.maxAgeMs * 1000000)

instance (config : Config) (now : Int) : DecidablePred (Timely config now) :=
  fun _ => inferInstanceAs (Decidable (_ ∧ _))

/-- The limit on the age has its number of nanoseconds in a word of 64 bits with a sign. -/
def Config.AgeFits (config : Config) : Prop := config.maxAgeMs * 1000000 < 2 ^ 63

instance (config : Config) : Decidable config.AgeFits := inferInstanceAs (Decidable (_ < _))

/-- A limit that fits is the same in words: the product of `Config.ageLimit` does not wrap. -/
theorem Config.ageLimit_of_fits {config : Config} (hage : 0 ≤ config.maxAgeMs)
    (hfits : config.AgeFits) :
    config.ageLimit = config.maxAgeMs * 1000000 :=
  ofMilliseconds_of_lt hage hfits

/-- A limit that does not fit is greater than any word, so that `Config.ageLimit` is below it. -/
theorem Config.ageLimit_lt_of_not_fits {config : Config} (hfits : ¬config.AgeFits) :
    config.ageLimit < config.maxAgeMs * 1000000 :=
  Int.lt_of_lt_of_le (ofMilliseconds_lt _) (Int.not_lt.mp hfits)

/-- With a limit that fits, the samples that count are the `Timely` ones. -/
theorem counts_eq_timely {config : Config} (hage : 0 ≤ config.maxAgeMs) (hfits : config.AgeFits)
    (now : Int) :
    (empty config).counts now = fun s => decide (Timely config now s) := by
  funext s
  unfold counts Timely
  show (s.measured && (config.maxAgeMs ≤ 0 || now - s.finishedAt ≤ config.ageLimit)) = _
  rw [config.ageLimit_of_fits hage hfits]
  by_cases hlimit : 0 < config.maxAgeMs
  · simp [hlimit, Int.not_le.mpr hlimit]
  · simp [hlimit, Int.not_lt.mp hlimit]

/-- The estimate at a moment is that of those among the last samples that count. -/
theorem estimate_after {config : Config} (hroom : 0 < config.capacity) (us : List Use) (now : Int) :
    ((empty config).after us).estimate now =
      .ofSamples config.minSamples
        (((entered us).rtake ((empty config).after us).size).filter
          ((empty config).counts now)) := by
  have hperm := (holds_after hroom us).perm_rtake
  have hcounts : ((empty config).after us).counts now = (empty config).counts now := by
    funext s
    simp only [counts, config_after]
  rw [estimate, hcounts, config_after]
  exact Estimate.ofSamples_perm _ (hperm.filter _)

/-- A limit on the age that does not fit (`AgeFits`) leaves out a sample that is not older, whatever
the limit is. -/
theorem timely_left_out {config : Config} (hroom : 0 < config.capacity) (hfits : ¬config.AgeFits) :
    ∃ s now, 0 < s.wall ∧ Timely config now s ∧
      (((empty config).after [.record s]).estimate now).count = 0 := by
  have hlt := config.ageLimit_lt_of_not_fits hfits
  have hpos : 0 < config.maxAgeMs := by
    unfold Config.AgeFits at hfits
    omega
  -- a sample one nanosecond older than the word allows
  refine ⟨{ wall := 1 }, config.ageLimit + 1, Int.one_pos, ⟨rfl, fun _ => ?_⟩, ?_⟩
  · show config.ageLimit + 1 - 0 ≤ _
    omega
  · have hold : (empty config).counts (config.ageLimit + 1) { wall := 1 } = false := by
      show (true && (decide (config.maxAgeMs ≤ 0) || decide (config.ageLimit + 1 - 0 ≤
        config.ageLimit))) = false
      simp [Int.not_le.mpr hpos]
    have hnone : ∀ s ∈ (entered [.record { wall := 1 }]).rtake
        ((empty config).after [.record { wall := 1 }]).size,
        ¬(empty config).counts (config.ageLimit + 1) s = true := by
      intro s hs
      have hs : s ∈ [({ wall := 1 } : Sample)] := List.mem_of_mem_drop hs
      rw [List.mem_singleton.mp hs, hold]
      exact Bool.false_ne_true
    rw [estimate_after hroom, List.filter_eq_nil_iff.mpr hnone]
    rfl

/-- Room for two samples, none of them older than a millisecond. -/
def narrow : Config := { capacity := 2, minSamples := 1, maxAgeMs := 1 }

def latest : Sample := { wall := 4, cpu := 1, finishedAt := 1500000 }

/-- After a reset come a sample that was not measured, one without a duration, and three more; of
these the first is driven out by the last. -/
def busy : List Use :=
  [.record { wall := 9 }, .reset, .record { wall := 2, measured := false }, .record { wall := 0 },
    .record { wall := 7 }, .record { wall := 3, finishedAt := 500000 }, .record latest]

/-- The least limit on the age that does not fit, almost three hundred years. -/
def patient : Config := { capacity := 1, minSamples := 1, maxAgeMs := 9223372036855 }

end Window

end Headroom
