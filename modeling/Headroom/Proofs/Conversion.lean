import Headroom.CpuTime.Source
import Headroom.Sampling.Stopwatch
import Mathlib.Algebra.Group.Int.Defs
import Mathlib.Algebra.Group.Nat.Defs

/-!
# The time of a number of ticks

Ticks are converted to nanoseconds in words of 64 bits, the whole seconds apart from the rest.
Numbers of any size would need neither the words nor the two parts, and with them the conversion is
one multiplication and one division.

* **`Convertible`**: a rate and a number of ticks whose time can be told.
* **`Unwrapped`**: each operation on words gives what the operation on numbers gives.
* **`nanoseconds_eq`**: the time is the undivided one, rounded down.
* **`tick_reading_is_exact`**: what a thread reads about itself, and what a stopwatch makes of two
  readings.
-/

namespace Headroom

namespace Ticks

/-- The rate is that of a clock, and the whole seconds leave room for what is left of the
last one. -/
structure Convertible (rate ticks : Nat) : Prop where
  some : 1 ≤ rate
  fine : rate ≤ 10 ^ 9
  short : ticks / rate < 9223372036

/-- The number of all ticks, before it is put into a word: `total` is this number as long as the
word has room for it. -/
def sum (t : Ticks) : Nat := t.user.toNat + t.system.toNat

/-! ## Numbers -/

/-- Whole seconds and the rest of the last one, each converted, are the time of all ticks;
`nanoseconds` computes the former. Converting them apart is what keeps the products small. -/
theorem whole_add_part {rate : Nat} (hrate : 0 < rate) (ticks factor : Nat) :
    ticks / rate * factor + ticks % rate * factor / rate = ticks * factor / rate := by
  calc ticks / rate * factor + ticks % rate * factor / rate
    _ = (rate * (ticks / rate * factor) + ticks % rate * factor) / rate :=
      (Nat.mul_add_div hrate _ _).symm
    _ = (rate * (ticks / rate) + ticks % rate) * factor / rate := by
      rw [← Nat.mul_assoc, ← Nat.add_mul]
    _ = ticks * factor / rate := by rw [Nat.div_add_mod]

namespace Convertible

variable {rate ticks : Nat}

theorem seconds_lt (h : Convertible rate ticks) :
    ticks / rate * 1000000000 + 1000000000 < 2 ^ 63 := by
  have hshort := h.short
  omega

/-- The product that the conversion forms for the rest of a second fits into a word. -/
theorem product_lt (h : Convertible rate ticks) : ticks % rate * 1000000000 < 2 ^ 63 := by
  have hpart : ticks % rate < rate := Nat.mod_lt _ h.some
  have hfine := h.fine
  omega

theorem rest_lt (h : Convertible rate ticks) : ticks % rate * 1000000000 / rate < 1000000000 := by
  rw [Nat.div_lt_iff_lt_mul h.some, Nat.mul_comm]
  exact Nat.mul_lt_mul_of_pos_left (Nat.mod_lt _ h.some) (by decide)

theorem mono {fewer : Nat} (h : Convertible rate ticks) (hle : fewer ≤ ticks) :
    Convertible rate fewer :=
  ⟨h.some, h.fine, Nat.lt_of_le_of_lt (Nat.div_le_div_right hle) h.short⟩

end Convertible

/-! ## Words -/

theorem toInt_toInt64 {w : UInt64} (h : w.toNat < 2 ^ 63) : w.toInt64.toInt = w.toNat := by
  show BitVec.toInt w.toBitVec = _
  exact BitVec.toInt_eq_toNat_of_lt (by show 2 * w.toNat < 2 ^ 64; omega)

/-- No operation of a conversion leaves the range of its word. -/
structure Unwrapped (rate : UInt64) (t : Ticks) : Prop where
  total : t.total.toNat = t.sum
  product : (t.total % rate * 1000000000).toNat = t.sum % rate.toNat * 1000000000
  rest : (t.total % rate * 1000000000 / rate).toInt64.toInt =
    (t.sum % rate.toNat * 1000000000 / rate.toNat : Nat)
  whole : (t.total / rate).toInt64.toInt = (t.sum / rate.toNat : Nat)
  seconds : ((t.total / rate).toInt64 * 1000000000).toInt = (t.sum / rate.toNat * 1000000000 : Nat)
  time : ((t.total / rate).toInt64 * 1000000000 +
    (t.total % rate * 1000000000 / rate).toInt64).toInt =
    (t.sum / rate.toNat * 1000000000 + t.sum % rate.toNat * 1000000000 / rate.toNat : Nat)

/-- Ticks that are `Convertible` are converted without wrapping. -/
theorem unwrapped {rate : UInt64} {t : Ticks} (hsum : t.sum < 2 ^ 64)
    (h : Convertible rate.toNat t.sum) :
    Unwrapped rate t := by
  have hseconds_lt := h.seconds_lt
  have hproduct_lt := h.product_lt
  have hrest_lt := h.rest_lt
  -- each step of the conversion fits into its word, in the order in which it is made
  have htotal : t.total.toNat = t.sum := by
    rw [total, UInt64.toNat_add]
    exact Nat.mod_eq_of_lt hsum
  have hproduct : (t.total % rate * 1000000000).toNat = t.sum % rate.toNat * 1000000000 := by
    have hfits : t.sum % rate.toNat * 1000000000 < 2 ^ 64 := Nat.lt_trans hproduct_lt (by decide)
    rw [UInt64.toNat_mul, UInt64.toNat_mod, htotal]
    exact Nat.mod_eq_of_lt hfits
  have hrest : (t.total % rate * 1000000000 / rate).toInt64.toInt =
      (t.sum % rate.toNat * 1000000000 / rate.toNat : Nat) := by
    have hword : (t.total % rate * 1000000000 / rate).toNat =
        t.sum % rate.toNat * 1000000000 / rate.toNat := by
      rw [UInt64.toNat_div, hproduct]
    rw [toInt_toInt64 (by omega), hword]
  have hwhole : (t.total / rate).toInt64.toInt = (t.sum / rate.toNat : Nat) := by
    have hword : (t.total / rate).toNat = t.sum / rate.toNat := by rw [UInt64.toNat_div, htotal]
    rw [toInt_toInt64 (by omega), hword]
  have hseconds : ((t.total / rate).toInt64 * 1000000000).toInt =
      (t.sum / rate.toNat * 1000000000 : Nat) := by
    rw [Int64.toInt_mul, hwhole]
    show ((t.sum / rate.toNat : Nat) * 1000000000 : Int).bmod (2 ^ 64) = _
    rw [Int.bmod_eq_of_le (by omega) (by omega)]
    omega
  refine ⟨htotal, hproduct, hrest, hwhole, hseconds, ?_⟩
  rw [Int64.toInt_add, hseconds, hrest]
  generalize t.sum % rate.toNat * 1000000000 / rate.toNat = rest at hrest_lt ⊢
  rw [Int.bmod_eq_of_le (by omega) (by omega), Int.natCast_add]

/-- **The conversion is exact**: the words hold the time of all ticks, rounded down to
a nanosecond. -/
theorem nanoseconds_eq {rate : UInt64} {t : Ticks} (hsum : t.sum < 2 ^ 64)
    (h : Convertible rate.toNat t.sum) :
    nanoseconds rate t.total = (t.sum * 10 ^ 9 / rate.toNat : Nat) := by
  show nanoseconds rate t.total = (t.sum * 1000000000 / rate.toNat : Nat)
  rw [← whole_add_part h.some]
  exact (unwrapped hsum h).time

end Ticks

/-! ## Readings -/

/-- The machine shows a thread these ticks of its own: the line about it is found, and has them in
it. -/
def Host.Shows (h : Host) (t : Ticks) : Prop :=
  ∃ stat, h.environment.contents? h.files (text "/proc/thread-self/stat") = some stat ∧
    Ticks.ofStat? stat = some t

namespace CpuSource

open Ticks

variable {h : Host} {t : Ticks} {rate : UInt64}

theorem fileTime?_of_shows (hshows : h.Shows t) :
    fileTime? rate h = some (nanoseconds rate t.total) := by
  obtain ⟨stat, hfile, hticks⟩ := hshows
  unfold fileTime?
  rw [hfile]
  show ((Ticks.ofStat? stat).bind fun ticks => some (nanoseconds rate ticks.total)) = _
  rw [hticks]
  rfl

/-- A thread reads its computing time off its own line, in full. -/
theorem fileTime?_eq (hshows : h.Shows t) (hsum : t.sum < 2 ^ 64)
    (hrange : Convertible rate.toNat t.sum) :
    fileTime? rate h = some ((t.sum * 10 ^ 9 / rate.toNat : Nat) : Int) := by
  rw [fileTime?_of_shows hshows, nanoseconds_eq hsum hrange]

/-- A stopwatch measures the time between two readings that do not go down. -/
theorem stop_of_le {earlier later : Int} (hle : earlier ≤ later) (began threads now : Int) :
    (Stopwatch.stop ⟨began, some earlier⟩ threads now (some later)).measured = true ∧
      (Stopwatch.stop ⟨began, some earlier⟩ threads now (some later)).cpu = later - earlier := by
  have helapsed : Stopwatch.elapsedCpu? (some earlier) (some later) = some (later - earlier) :=
    if_pos hle
  unfold Stopwatch.stop
  rw [helapsed]
  exact ⟨rfl, rfl⟩

/-- **A reading of ticks is exact.** The machine shows a thread its two counters, whose sum fits a
word. The clock has between one and 10⁹ ticks in a second, and the ticks are those of fewer than
9223372036 seconds. Then the reading is the number of nanoseconds of all ticks, rounded down, and no
operation on the way leaves the range of its word (`Unwrapped`). A reading of fewer ticks is not
larger, so a stopwatch that is started with it and stopped with the other one has measured the time
between them, which is not negative. -/
theorem tick_reading_is_exact (hshows : h.Shows t) (hsum : t.user.toNat + t.system.toNat < 2 ^ 64)
    (hsome : 1 ≤ rate.toNat) (hfine : rate.toNat ≤ 10 ^ 9)
    (hshort : (t.user.toNat + t.system.toNat) / rate.toNat < 9223372036) :
    fileTime? rate h = some (((t.user.toNat + t.system.toNat) * 10 ^ 9 / rate.toNat : Nat) : Int) ∧
      Unwrapped rate t ∧
      ∀ (before : Host) (s : Ticks), before.Shows s →
        s.user.toNat + s.system.toNat ≤ t.user.toNat + t.system.toNat →
          ∃ earlier later : Int, fileTime? rate before = some earlier ∧
            fileTime? rate h = some later ∧ earlier ≤ later ∧ ∀ began threads now,
              let sample := Stopwatch.stop ⟨began, fileTime? rate before⟩ threads now
                (fileTime? rate h)
              sample.measured = true ∧ sample.cpu = later - earlier ∧ 0 ≤ sample.cpu := by
  have hrange : Convertible rate.toNat t.sum := ⟨hsome, hfine, hshort⟩
  have hlater := fileTime?_eq hshows hsum hrange
  refine ⟨hlater, unwrapped hsum hrange, fun before s hbefore hle => ?_⟩
  have hle : s.sum ≤ t.sum := hle
  have hearlier := fileTime?_eq hbefore (Nat.lt_of_le_of_lt hle hsum) (hrange.mono hle)
  have hmono : ((s.sum * 10 ^ 9 / rate.toNat : Nat) : Int) ≤ (t.sum * 10 ^ 9 / rate.toNat : Nat) :=
    Int.ofNat_le.mpr (Nat.div_le_div_right (Nat.mul_le_mul_right _ hle))
  refine ⟨_, _, hearlier, hlater, hmono, fun began threads now => ?_⟩
  obtain ⟨hmeasured, hcpu⟩ := stop_of_le hmono began threads now
  rw [hearlier, hlater]
  exact ⟨hmeasured, hcpu, hcpu ▸ Int.sub_nonneg_of_le hmono⟩

/-- A machine on which a thread finds this line about itself. -/
def showing (line : Bytes) : Host :=
  ⟨⟨[]⟩, .ofList [(text "/proc/thread-self/stat", some line)], 0, false, []⟩

theorem shows_showing {line : Bytes} (hticks : Ticks.ofStat? line = some t) :
    (showing line).Shows t := ⟨line, rfl, hticks⟩

/-- A thread with one tick of computing time. -/
def fresh : Host := showing (text "7 (a) S 1 7 7 0 -1 0 0 0 0 0 1 0 0")

/-- A thread with as many ticks as can be told at 1024 in a second. -/
def veteran : Host := showing (text "7 (a) S 1 7 7 0 -1 0 0 0 0 0 9444732964800 63 0")

/-- Half a nanosecond is lost at either end. -/
theorem tick_reading_is_exact_veteran :
    veteran.Shows ⟨9444732964800, 63⟩ ∧ fresh.Shows ⟨1, 0⟩ ∧
    (9444732964800 + 63) / 1024 = 9223372035 ∧
      fileTime? 1024 veteran = some 9223372035999023437 ∧ fileTime? 1024 fresh = some 976562 ∧
      (Stopwatch.stop ⟨0, fileTime? 1024 fresh⟩ 1 5 (fileTime? 1024 veteran)).cpu =
        9223372035998046875 := by
  have hveteran : veteran.Shows ⟨9444732964800, 63⟩ := shows_showing (by decide +kernel)
  have hfresh : fresh.Shows ⟨1, 0⟩ := shows_showing (by decide +kernel)
  obtain ⟨hlast, -, hbetween⟩ := @tick_reading_is_exact _ _ 1024 hveteran (by decide) (by decide)
    (by decide) (by decide)
  obtain ⟨hfirst, -, -⟩ := @tick_reading_is_exact _ _ 1024 hfresh (by decide) (by decide)
    (by decide) (by decide)
  obtain ⟨earlier, later, hearlier, hlater, -, hstopped⟩ := hbetween fresh ⟨1, 0⟩ hfresh (by decide)
  refine ⟨hveteran, hfresh, by decide, hlast, hfirst, ?_⟩
  rw [(hstopped 0 1 5).2.1, ← Option.some.inj (hfirst.symm.trans hearlier),
    ← Option.some.inj (hlast.symm.trans hlater)]
  decide

end CpuSource

end Headroom
