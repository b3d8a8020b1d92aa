import Headroom.Number.Reader
import Headroom.Proofs.Nearest

/-!
# The unit of a duration

A duration is written in the unit that suits its size, and the unit is chosen before the number is
rounded. This module says for which durations the two go together.

* **`Fixed.count`**: how many units of its last place a double is printed as. A larger double is not
  printed as fewer (`count_mono`), so it is enough to know the durations at both ends of a range.
* **`Report.Says`**: a text says a number of some unit of time. The number is read as decimals are
  read elsewhere.
* **`Report.duration_cases`**: the unit that is chosen, and the number before it.
* **`Report.duration_suits_iff`**: the number fits its unit, unless the duration is so close below
  the next unit that it is rounded up to a thousand of the one before.
-/

namespace Headroom

/-! ## What is printed of a double -/

namespace Fixed

open Rounding

/-- The `units` of the last place that is printed are the nearest integer to the exact number of
them. -/
theorem units_eq (places m : Nat) (e : Int) :
    units places m e = nearestInt (m * 2 ^ e * 10 ^ places) := by
  show Binary64.roundDiv (m * 10 ^ places * 2 ^ e.toNat) (1 * 2 ^ (-e).toNat) = _
  rw [roundDiv_eq _ (by positivity)]
  congr 1
  push_cast
  -- one of the two powers is one
  rcases Int.le_total 0 e with he | he
  · obtain ⟨k, rfl⟩ := Int.eq_ofNat_of_zero_le he
    rw [Int.toNat_natCast, Int.toNat_eq_zero.mpr (by omega), zpow_natCast]
    ring
  · obtain ⟨k, hk⟩ := Int.eq_ofNat_of_zero_le (show 0 ≤ -e by omega)
    rw [hk, Int.toNat_natCast, Int.toNat_eq_zero.mpr he, show e = -(k : Int) by omega, zpow_neg,
      zpow_natCast]
    field_simp

/-- The `units` of the last place that a double is printed as, without its sign. -/
def count (places : Nat) (x : Float) : Nat :=
  match Binary64.decode x with
  | .finite _ m e => units places m e
  | _ => 0

variable {x y : Float} {v w : ℚ}

theorem count_eq (h : Exactly x v) (places : Nat) :
    count places x = nearestInt (v * 10 ^ places) := by
  obtain ⟨m, e, hm, hx, rfl⟩ := h
  rw [count, decode_eq, hx]
  exact units_eq places m e

theorem render_eq (h : Exactly x v) (places : Nat) :
    render places x = layout places (count places x) := by
  obtain ⟨m, e, hm, hx, rfl⟩ := h
  rw [render, count, decode_eq, hx]
  rfl

theorem count_mono (hx : Exactly x v) (hy : Exactly y w) (hle : x ≤ y) (places : Nat) :
    count places x ≤ count places y := by
  have hvalue : v ≤ w := (hx.le_iff hy).mp hle
  rw [count_eq hx, count_eq hy]
  exact nearestInt_mono (by gcongr)

end Fixed

/-! ## Quotients of counts -/

namespace Rounding

section
variable {n m c : Nat}

/-- Converting counts to doubles keeps their order, rounding included. -/
theorem natCast_le_natCast (hn : 0 < n) (hle : n ≤ m) : (n : Float) ≤ (m : Float) :=
  (rounds_natCast hn).le (rounds_natCast (Nat.lt_of_lt_of_le hn hle)) (by exact_mod_cast hn)
    (by exact_mod_cast hle)

/-- Comparing a count to a bound of at most 53 bits gives the same answer with doubles, since the
bound is not rounded and nothing is rounded across it. -/
theorem natCast_lt_iff (hc : 0 < c) (hbits : c < 2 ^ 53) : (n : Float) < (c : Float) ↔ n < c := by
  constructor
  · intro hlt
    by_contra hle
    have hback := natCast_le_natCast hc (Nat.le_of_not_lt hle)
    obtain ⟨-, -, hplace⟩ := Doubles.lt_iff.mp (Doubles.lt_of_le_of_lt hback hlt)
    exact lt_irrefl _ hplace
  · intro hlt
    have hexact := exactly_natCast hc hbits
    rcases Nat.eq_zero_or_pos n with rfl | hn
    · exact hexact.zero_lt
    · have hsmall := exactly_natCast hn (Nat.lt_trans hlt hbits)
      have hnot : ¬(c : Float) ≤ (n : Float) := by
        rw [hexact.le_iff hsmall]
        exact_mod_cast Nat.not_le_of_lt hlt
      rcases Doubles.not_le_iff.mp hnot with hless | hnan | hnan
      · exact hless
      · rw [hexact.rounds.isNaN_eq_false] at hnan
        cases hnan
      · rw [hsmall.rounds.isNaN_eq_false] at hnan
        cases hnan

theorem exactly_of_upTo {k : Int} {x : Float} (hpos : 0 < x) (h : UpTo k x) : ∃ v, Exactly x v := by
  refine (pos_iff.mp hpos).resolve_left fun hinfinite => ?_
  rw [UpTo, hinfinite] at h
  cases h

/-- A count of nanoseconds in a unit of which it has at least one, below `2 ^ 63`. -/
structure Counted (c n : Nat) : Prop where
  unit_pos : 0 < c
  unit_bits : c < 2 ^ 53
  least : c ≤ n
  most : n ≤ 2 ^ 63

namespace Counted

theorem dividend (h : Counted c n) : ∃ v, Exactly (n : Float) v := by
  have hpos : (0 : Float) < n :=
    Doubles.lt_of_lt_of_le (exactly_natCast h.unit_pos h.unit_bits).zero_lt
      (natCast_le_natCast h.unit_pos h.least)
  exact exactly_of_upTo hpos (upTo_natCast (j := 63) h.most (by decide))

/-- The quotient by a unit grows with the count, rounding included. -/
theorem div_le_div (h : Counted c n) (hle : n ≤ m) (hm : m ≤ 2 ^ 63) :
    (n : Float) / (c : Float) ≤ (m : Float) / (c : Float) := by
  have hc := exactly_natCast h.unit_pos h.unit_bits
  obtain ⟨v, hv⟩ := h.dividend
  obtain ⟨w, hw⟩ := dividend ⟨h.unit_pos, h.unit_bits, Nat.le_trans h.least hle, hm⟩
  have hvalue : v ≤ w :=
    (hv.le_iff hw).mp (natCast_le_natCast (Nat.lt_of_lt_of_le h.unit_pos h.least) hle)
  refine (hv.div hc).le (hw.div hc) (div_pos hv.pos hc.pos) ?_
  have := hc.pos
  gcongr

/-- The quotient is a finite double, so it has a value (`Exactly`) and is printed with digits. -/
theorem quotient (h : Counted c n) : ∃ v, Exactly ((n : Float) / (c : Float)) v := by
  have hc := exactly_natCast h.unit_pos h.unit_bits
  have hone : Exactly ((c : Float) / (c : Float)) 1 := hc.div_self
  have hpos : 0 < (n : Float) / (c : Float) :=
    Doubles.lt_of_lt_of_le hone.zero_lt
      (div_le_div ⟨h.unit_pos, h.unit_bits, Nat.le_refl c, Nat.le_trans h.least h.most⟩ h.least
        h.most)
  have hfrom : From 0 (c : Float) := from_natCast (j := 0) h.unit_pos
  exact exactly_of_upTo hpos ((upTo_natCast (j := 63) h.most (by decide)).div hfrom (by decide)
    (by decide))

end Counted

/-- What is printed of a count of nanoseconds in a unit, in units of the last place. -/
def shown (places c n : Nat) : Nat := Fixed.count places ((n : Float) / (c : Float))

/-- The printed text is `shown` laid out with a point. -/
theorem render_shown (h : Counted c n) (places : Nat) :
    Fixed.render places ((n : Float) / (c : Float)) = Fixed.layout places (shown places c n) := by
  obtain ⟨v, hv⟩ := h.quotient
  exact Fixed.render_eq hv places

theorem shown_mono (h : Counted c n) (hle : n ≤ m) (hm : m ≤ 2 ^ 63) (places : Nat) :
    shown places c n ≤ shown places c m := by
  obtain ⟨v, hv⟩ := h.quotient
  obtain ⟨w, hw⟩ := Counted.quotient ⟨h.unit_pos, h.unit_bits, Nat.le_trans h.least hle, hm⟩
  exact Fixed.count_mono hv hw (h.div_le_div hle hm) places

/-- What is printed of the durations between two others lies between what is printed of these.
Evaluating `shown` at the ends of a range therefore bounds it on the whole range. -/
theorem shown_between {first : Nat} (last : Nat) (h : Counted c first) (hfirst : first ≤ n)
    (hlast : n ≤ last) (hmost : last ≤ 2 ^ 63) (places : Nat) :
    shown places c first ≤ shown places c n ∧ shown places c n ≤ shown places c last := by
  have hn : Counted c n := ⟨h.unit_pos, h.unit_bits, Nat.le_trans h.least hfirst,
    Nat.le_trans hlast hmost⟩
  exact ⟨shown_mono h hfirst hn.most places, shown_mono hn hlast hmost places⟩

end

end Rounding

/-! ## Decimals -/

/-- A text is a decimal number without a sign: the reader of settings takes it for the
number `q`. -/
def Denotes (s : Bytes) (q : ℚ) : Prop :=
  ∃ digits exponent, Reader.decimal? false s = some (.decimal false digits exponent) ∧
    q = digits * 10 ^ exponent

section
variable {whole fraction : Bytes}

theorem decimal?_whole (hsome : whole ≠ []) (hdigits : ∀ c ∈ whole, Bytes.isDigit c = true) :
    Reader.decimal? false whole = some (.decimal false (Bytes.digitsValue whole) 0) := by
  have htake : whole.takeWhile Bytes.isDigit = whole := List.takeWhile_eq_self_iff.mpr hdigits
  have hdrop : whole.dropWhile Bytes.isDigit = [] := List.dropWhile_eq_nil_iff.mpr hdigits
  have hmantissa : Reader.mantissa? Bytes.isDigit whole = some (whole, [], []) := by
    unfold Reader.mantissa?
    rw [htake, hdrop]
    exact if_neg (by simp [hsome])
  unfold Reader.decimal?
  rw [hmantissa]
  show some (Literal.decimal false (Bytes.digitsValue (whole ++ [])) (0 - (0 : Nat))) = _
  rw [List.append_nil]
  rfl

theorem decimal?_point (hsome : whole ≠ []) (hwhole : ∀ c ∈ whole, Bytes.isDigit c = true)
    (hfraction : ∀ c ∈ fraction, Bytes.isDigit c = true) :
    Reader.decimal? false (whole ++ 46 :: fraction) =
      some (.decimal false (Bytes.digitsValue (whole ++ fraction)) (-fraction.length)) := by
  have hpoint : ¬Bytes.isDigit 46 = true := by decide
  have htake : (whole ++ 46 :: fraction).takeWhile Bytes.isDigit = whole := by
    rw [List.takeWhile_append_of_pos hwhole, List.takeWhile_cons_of_neg hpoint, List.append_nil]
  have hdrop : (whole ++ 46 :: fraction).dropWhile Bytes.isDigit = 46 :: fraction := by
    rw [List.dropWhile_append_of_pos hwhole, List.dropWhile_cons_of_neg hpoint]
  have hmantissa : Reader.mantissa? Bytes.isDigit (whole ++ 46 :: fraction) =
      some (whole, fraction, []) := by
    unfold Reader.mantissa?
    rw [htake, hdrop]
    show (if (whole.isEmpty && (fraction.takeWhile Bytes.isDigit).isEmpty) = true then none
      else some (whole, fraction.takeWhile Bytes.isDigit, fraction.dropWhile Bytes.isDigit)) = _
    rw [List.takeWhile_eq_self_iff.mpr hfraction, List.dropWhile_eq_nil_iff.mpr hfraction]
    exact if_neg (by simp [hsome])
  unfold Reader.decimal?
  rw [hmantissa]
  show
    some (Literal.decimal false (Bytes.digitsValue (whole ++ fraction)) (0 - fraction.length)) = _
  rw [Int.zero_sub]

end

theorem digitsValue_zeros (k : Nat) (ds : Bytes) :
    Bytes.digitsValue (List.replicate k 48 ++ ds) = Bytes.digitsValue ds := by
  induction k with
  | zero => rfl
  | succ k ih => exact ih

theorem denotes_ofNat (n : Nat) : Denotes (Bytes.ofNat n) n := by
  refine ⟨_, _, decimal?_whole (Bytes.ofNat_ne_nil n) fun c hc => Bytes.isDigit_of_mem_ofNat hc, ?_⟩
  rw [Bytes.digitsValue_ofNat, zpow_zero, mul_one]

/-- A text with places denotes the number that was printed: `layout` and the reader of decimals
agree on where the point goes. -/
theorem denotes_layout {places : Nat} (hplaces : 0 < places) (n : Nat) :
    Denotes (Fixed.layout places n) (n / 10 ^ places) := by
  -- the digits are padded with zeros on the left, up to one more than the places
  have hdigits : ∀ c ∈ List.replicate (places + 1 - (Bytes.ofNat n).length) 48 ++ Bytes.ofNat n,
      Bytes.isDigit c = true := by
    refine List.forall_mem_append.mpr ⟨fun c hc => ?_, fun c hc => Bytes.isDigit_of_mem_ofNat hc⟩
    rw [List.eq_of_mem_replicate hc]
    rfl
  have hvalue := digitsValue_zeros (places + 1 - (Bytes.ofNat n).length) (Bytes.ofNat n)
  rw [Bytes.digitsValue_ofNat] at hvalue
  have hlong : places < (List.replicate (places + 1 - (Bytes.ofNat n).length) 48 ++
      Bytes.ofNat n).length := by
    rw [List.length_append, List.length_replicate]
    omega
  unfold Fixed.layout
  dsimp only
  rw [if_neg (by simp only [beq_iff_eq]; omega)]
  -- from here on it does not matter where the digits come from
  generalize List.replicate (places + 1 - (Bytes.ofNat n).length) 48 ++ Bytes.ofNat n = digits at *
  have hsome : digits.take (digits.length - places) ≠ [] := by
    apply List.ne_nil_of_length_pos
    rw [List.length_take]
    omega
  refine ⟨_, _, decimal?_point hsome (fun c hc => hdigits c (List.mem_of_mem_take hc))
    fun c hc => hdigits c (List.mem_of_mem_drop hc), ?_⟩
  have hlength : (digits.drop (digits.length - places)).length = places := by
    rw [List.length_drop]
    omega
  rw [List.take_append_drop, hvalue, hlength, zpow_neg, zpow_natCast, div_eq_mul_inv]

/-! ## Durations -/

namespace Report

open Rounding

/-- The units that durations are printed in. Each is a thousand of the one before. -/
inductive TimeUnit
  | nanosecond | microsecond | millisecond | second
deriving DecidableEq

def TimeUnit.all : List TimeUnit := [nanosecond, microsecond, millisecond, second]

def TimeUnit.symbol : TimeUnit → Bytes
  | nanosecond => text "ns"
  | microsecond => text "us"
  | millisecond => text "ms"
  | second => text "s"

/-- A text says a number of a unit of time: a decimal number, right before the symbol of
the unit. -/
def Says (s : Bytes) (q : ℚ) (u : TimeUnit) : Prop :=
  ∃ number, s = number ++ u.symbol ∧ Denotes number q

/-- There is at least one of the unit, unless there is no smaller unit, and fewer than a thousand,
unless there is no larger one. -/
def Suits (q : ℚ) (u : TimeUnit) : Prop := (u = .second ∨ q < 1000) ∧ (u = .nanosecond ∨ 1 ≤ q)

/-- All that a text says, as numbers with their units. It can be evaluated, so what a fixed text
does not say is settled by computing it. -/
def readings (s : Bytes) : List (Literal × TimeUnit) :=
  TimeUnit.all.filterMap fun u =>
    if s.drop (s.length - u.symbol.length) = u.symbol then
      (Reader.decimal? false (s.take (s.length - u.symbol.length))).map (·, u)
    else none

theorem Says.mem_readings {s : Bytes} {q : ℚ} {u : TimeUnit} (h : Says s q u) :
    ∃ (digits : Nat) (exponent : Int), (.decimal false digits exponent, u) ∈ readings s ∧
      q = digits * 10 ^ exponent := by
  obtain ⟨number, rfl, digits, exponent, hnumber, rfl⟩ := h
  refine ⟨digits, exponent, List.mem_filterMap.mpr ⟨u, by cases u <;> decide, ?_⟩, rfl⟩
  have hlength : (number ++ u.symbol).length - u.symbol.length = number.length := by
    rw [List.length_append, Nat.add_sub_cancel]
  rw [hlength, List.drop_left, List.take_left, if_pos rfl, hnumber]
  rfl

/-- A text that says a thousand of a unit which is not the largest, and nothing else, does not suit
(`Suits`). -/
theorem not_suits {s : Bytes} (digits : Nat) (exponent : Int) (u : TimeUnit)
    (hread : readings s = [(.decimal false digits exponent, u)]) (hu : u ≠ .second)
    (hthousand : (digits : ℚ) * 10 ^ exponent = 1000) : ¬∃ q u, Says s q u ∧ Suits q u := by
  rintro ⟨q, u', hsays, hsmall, -⟩
  obtain ⟨digits', exponent', hmem, rfl⟩ := hsays.mem_readings
  rw [hread, List.mem_singleton] at hmem
  cases hmem
  rcases hsmall with hsecond | hlt
  · exact hu hsecond
  · rw [hthousand] at hlt
    exact lt_irrefl _ hlt

/-- A number with places suits its unit (`Suits`), if it is at least one and below a thousand after
rounding. -/
theorem suits_layout {s : Bytes} {places count : Nat} {u : TimeUnit} (hplaces : 0 < places)
    (hs : s = Fixed.layout places count ++ u.symbol) (hleast : 10 ^ places ≤ count)
    (hmost : u = .second ∨ count < 1000 * 10 ^ places) : ∃ q u, Says s q u ∧ Suits q u := by
  refine ⟨count / 10 ^ places, u, ⟨_, hs, denotes_layout hplaces count⟩, hmost.imp_right fun hlt =>
    ?_, .inr ?_⟩
  · rw [div_lt_iff₀ (by positivity)]
    exact_mod_cast hlt
  · rw [le_div_iff₀ (by positivity), one_mul]
    exact_mod_cast hleast

/-- What a duration is printed as: the number before the unit, by the range that the duration lies
in. -/
theorem duration_cases {n : Nat} (hmost : n < 2 ^ 63) :
    (n < 1000 → duration n = Bytes.ofNat n ++ text "ns") ∧
      (1000 ≤ n → n < 1000000 → duration n = Fixed.layout 1 (shown 1 1000 n) ++ text "us") ∧
      (1000000 ≤ n → n < 1000000000 →
        duration n = Fixed.layout 2 (shown 2 1000000 n) ++ text "ms") ∧
      (1000000000 ≤ n → duration n = Fixed.layout 2 (shown 2 1000000000 n) ++ text "s") := by
  have hkilo : (1000.0 : Float) = ((1000 : Nat) : Float) := rfl
  have hmega : (1000000.0 : Float) = ((1000000 : Nat) : Float) := rfl
  have hgiga : (1000000000.0 : Float) = ((1000000000 : Nat) : Float) := rfl
  have hcast : Float.ofInt (n : Int) = (n : Float) := rfl
  have hofInt : Bytes.ofInt n = Bytes.ofNat n := rfl
  -- the three bounds are counts, so comparing doubles with them is comparing counts
  have hfirst : (n : Float) < ((1000 : Nat) : Float) ↔ n < 1000 :=
    natCast_lt_iff (by decide) (by decide)
  have hsecond : (n : Float) < ((1000000 : Nat) : Float) ↔ n < 1000000 :=
    natCast_lt_iff (by decide) (by decide)
  have hthird : (n : Float) < ((1000000000 : Nat) : Float) ↔ n < 1000000000 :=
    natCast_lt_iff (by decide) (by decide)
  unfold duration
  dsimp only
  rw [hkilo, hmega, hgiga, hcast, hofInt]
  refine ⟨fun hlt => ?_, fun hle hlt => ?_, fun hle hlt => ?_, fun hle => ?_⟩
  · rw [if_pos (hfirst.mpr hlt)]
  · rw [if_neg (mt hfirst.mp (by omega)), if_pos (hsecond.mpr hlt),
      render_shown ⟨by decide, by decide, hle, hmost.le⟩]
  · rw [if_neg (mt hfirst.mp (by omega)), if_neg (mt hsecond.mp (by omega)),
      if_pos (hthird.mpr hlt), render_shown ⟨by decide, by decide, hle, hmost.le⟩]
  · rw [if_neg (mt hfirst.mp (by omega)), if_neg (mt hsecond.mp (by omega)),
      if_neg (mt hthird.mp (by omega)), render_shown ⟨by decide, by decide, hle, hmost.le⟩]

/-- The numbers `shown` at the ends of the ranges, and where rounding reaches a thousand. -/
theorem shown_ends :
    shown 1 1000 1000 = 10 ∧ shown 1 1000 999949 = 9999 ∧ shown 1 1000 999950 = 10000 ∧
    shown 1 1000 1000000 = 10000 ∧
      shown 2 1000000 1000000 = 100 ∧ shown 2 1000000 999994999 = 99999 ∧
      shown 2 1000000 999995000 = 100000 ∧ shown 2 1000000 1000000000 = 100000 ∧
      shown 2 1000000000 1000000000 = 100 := by
  decide +kernel

/-- **The number suits the unit, but for two narrow ranges.** A duration is printed as a number
(`Says`) of nanoseconds, microseconds, milliseconds or seconds. The number is below a thousand
unless the unit is the second, and at least one unless the unit is the nanosecond (`Suits`), exactly
if the duration is in neither of two ranges: the last 50 nanoseconds below a millisecond, which are
all printed as a thousand microseconds, and the last 5 microseconds below a second, which are
printed as a thousand milliseconds. -/
theorem duration_suits_iff {ns : Int} (hns : 0 ≤ ns) (hmost : ns < 2 ^ 63) :
    ((∃ q u, Says (duration ns) q u ∧ Suits q u) ↔
        ¬(999950 ≤ ns ∧ ns < 1000000) ∧ ¬(999995000 ≤ ns ∧ ns < 1000000000)) ∧
      (999950 ≤ ns → ns < 1000000 → duration ns = text "1000.0us") ∧
      (999995000 ≤ ns → ns < 1000000000 → duration ns = text "1000.00ms") := by
  obtain ⟨n, rfl⟩ := Int.eq_ofNat_of_zero_le hns
  have hn : n < 2 ^ 63 := by omega
  obtain ⟨hnano, hmicro, hmilli, hseconds⟩ := duration_cases hn
  obtain ⟨hone, hlast, hover, hnext, hone', hlast', hover', hnext', hone''⟩ := shown_ends
  -- between two durations that are printed alike all are, and the ends of each range are known
  have hthousandMicro : 999950 ≤ n → n < 1000000 → duration n = text "1000.0us" := by
    intro hle hlt
    have hshown := shown_between (c := 1000) 1000000 ⟨by decide, by decide, by decide, by
      decide⟩ hle hlt.le
      (by decide) 1
    rw [hmicro (by omega) hlt, show shown 1 1000 n = 10000 by omega]
    decide
  have hthousandMilli : 999995000 ≤ n → n < 1000000000 → duration n = text "1000.00ms" := by
    intro hle hlt
    have hshown := shown_between (c := 1000000) 1000000000 ⟨by decide, by decide, by decide, by
      decide⟩ hle
      hlt.le (by decide) 2
    rw [hmilli (by omega) hlt, show shown 2 1000000 n = 100000 by omega]
    decide
  refine ⟨⟨fun hsuits => ⟨fun hrange => ?_, fun hrange => ?_⟩, fun hrange => ?_⟩, fun hle hlt =>
    ?_, fun hle hlt => ?_⟩
  · rw [hthousandMicro (by omega) (by omega)] at hsuits
    exact not_suits 10000 (-1) .microsecond (by decide) (by decide) (by norm_num) hsuits
  · rw [hthousandMilli (by omega) (by omega)] at hsuits
    exact not_suits 100000 (-2) .millisecond (by decide) (by decide) (by norm_num) hsuits
  · rcases Nat.lt_or_ge n 1000 with hlt | hle
    · have hsmall : (n : ℚ) < 1000 := by exact_mod_cast hlt
      exact ⟨n, .nanosecond, ⟨_, hnano hlt, denotes_ofNat n⟩, .inr hsmall, .inl rfl⟩
    rcases Nat.lt_or_ge n 1000000 with hlt | hle
    · have hshown := shown_between (c := 1000) 999949 ⟨by decide, by decide, Nat.le_refl _, by
        decide⟩ hle
        (by omega) (by decide) 1
      exact suits_layout (u := .microsecond) (by decide) (hmicro hle hlt) (by omega)
        (.inr (by omega))
    rcases Nat.lt_or_ge n 1000000000 with hlt | hle
    · have hshown := shown_between (c := 1000000) 999994999 ⟨by decide, by decide, Nat.le_refl _, by
        decide⟩ hle
        (by omega) (by decide) 2
      exact suits_layout (u := .millisecond) (by decide) (hmilli hle hlt) (by omega)
        (.inr (by omega))
    · have hleast := shown_mono (c := 1000000000) ⟨by decide, by decide, Nat.le_refl _, by
        decide⟩ hle hn.le 2
      exact suits_layout (u := .second) (by decide) (hseconds hle) (by omega) (.inl rfl)
  · exact hthousandMicro (by omega) (by omega)
  · exact hthousandMilli (by omega) (by omega)

/-- The last duration before either range, and the longest of all. -/
theorem duration_suits_iff_ends :
    (∃ q u, Says (duration 999949) q u ∧ Suits q u) ∧
    (∃ q u, Says (duration 999994999) q u ∧ Suits q u) ∧
      (∃ q u, Says (duration 9223372036854775807) q u ∧ Suits q u) ∧
      duration 999999 = text "1000.0us" ∧ duration 999999999 = text "1000.00ms" := by
  refine ⟨(duration_suits_iff ?_ ?_).1.mpr ?_, (duration_suits_iff ?_ ?_).1.mpr ?_,
    (duration_suits_iff ?_ ?_).1.mpr ?_, (duration_suits_iff ?_ ?_).2.1 ?_ ?_,
    (duration_suits_iff ?_ ?_).2.2 ?_ ?_⟩ <;> decide

/-- A thousand microseconds are printed where there is almost a millisecond. -/
theorem microseconds_reach_thousand :
    duration 999950 = text "1000.0us" ∧ ¬∃ q u, Says (duration 999950) q u ∧ Suits q u := by
  have hprinted : duration 999950 = text "1000.0us" := by decide +kernel
  refine ⟨hprinted, ?_⟩
  rw [hprinted]
  exact not_suits 10000 (-1) .microsecond (by decide) (by decide) (by norm_num)

end Report

end Headroom
