import Headroom.Proofs.Comparison
import Headroom.Proofs.Widths
import Mathlib.Algebra.Order.Field.Power
import Mathlib.Algebra.Order.Floor.Semifield
import Mathlib.Data.Int.Log
import Mathlib.Data.Rat.Floor
import Mathlib.Tactic.Linarith
import Mathlib.Tactic.NormNum

/-!
# The nearest double

The result of an operation on doubles is the exact one, rounded. How the exact one is written, as a
mantissa with an exponent and a remark on what was cut off, makes no difference to the rounding. So
an operation can be told by one number and one function, and the function keeps the order.

* **`nearestInt`**, **`nearest`**: the integer and the double that a number is rounded to.
* **`rounded_eq_nearest`**: rounding a mantissa is rounding the number that it stands for.
* **`nearest_mono`**, **`nearest_of_canonical`**: rounding keeps the order, and changes no double.
* **`Exactly`**, **`Rounds`**: a double and its value, a double and a number that it is the nearest
  one to. Products, quotients and counts round (`Exactly.mul`, `Exactly.div`, `rounds_natCast`), and
  what rounds keeps its order (`Rounds.le`).
-/

namespace Headroom.Rounding

open Float.Model Float.Model.UnpackedFloat

/-! ## The nearest integer -/

/-- The places that rounding tells apart: four to an integer, which are the integer itself, less
than a half above it, a half and more than a half. The `code` of a mantissa is the same number for
the value it stands for. -/
def quarters (x : ℚ) : Nat := ⌊2 * x⌋₊ + ⌈2 * x⌉₊

/-- The integer that a place is rounded to. The next one is taken if it is nearer, and if it is as
near and even. -/
def ofQuarters (c : Nat) : Nat := if c % 4 = 3 ∨ c % 4 = 2 ∧ c / 4 % 2 = 1 then c / 4 + 1 else c / 4

/-- The nearest integer, a half going to the even one: what both `ExtendedMantissa.roundedMantissa`
and `Binary64.roundDiv` compute, the one from two bits and the other from a remainder. -/
def nearestInt (x : ℚ) : Nat := ofQuarters (quarters x)

theorem ofQuarters_eq (n : Nat) : ofQuarters (4 * n) = n ∧ ofQuarters (4 * n + 1) = n ∧
    ofQuarters (4 * n + 2) = n + n % 2 ∧ ofQuarters (4 * n + 3) = n + 1 := by
  unfold ofQuarters
  refine ⟨?_, ?_, ?_, ?_⟩ <;> split <;> omega

theorem quarters_mono {x y : ℚ} (h : x ≤ y) : quarters x ≤ quarters y :=
  Nat.add_le_add (Nat.floor_mono (by linarith)) (Nat.ceil_mono (by linarith))

theorem nearestInt_mono {x y : ℚ} (h : x ≤ y) : nearestInt x ≤ nearestInt y := by
  have hle := quarters_mono h
  unfold nearestInt ofQuarters
  split <;> split <;> omega

theorem quarters_natCast (n : Nat) : quarters n = 4 * n := by
  have htwice : (2 : ℚ) * n = (2 * n : Nat) := by push_cast; rfl
  rw [quarters, htwice, Nat.floor_natCast, Nat.ceil_natCast]
  omega

theorem nearestInt_natCast (n : Nat) : nearestInt n = n := by
  rw [nearestInt, quarters_natCast]
  exact (ofQuarters_eq n).1

theorem floor_of_double (x : ℚ) : ⌊x⌋₊ = ⌊2 * x⌋₊ / 2 := by
  rw [← Nat.floor_div_ofNat, mul_div_cancel_left₀ x two_ne_zero]

theorem floor_of_quarters (x : ℚ) : ⌊x⌋₊ = quarters x / 4 := by
  have hlow := Nat.floor_le_ceil (2 * x)
  have hhigh := Nat.ceil_le_floor_add_one (2 * x)
  rw [floor_of_double, quarters]
  omega

/-- The place of half a number. This is `code_shiftRightOne` without the bits: a shift by one bit
halves the value, and what is lost shows in the last digit only. -/
theorem quarters_half (x : ℚ) :
    quarters (x / 2) = 2 * (quarters x / 4) + min (quarters x % 4) 1 := by
  have hceil : ⌈x⌉₊ = (⌈2 * x⌉₊ + 1) / 2 := by
    refine eq_of_forall_ge_iff fun k => ?_
    have hle : ⌈2 * x⌉₊ ≤ 2 * k ↔ x ≤ k := by
      rw [Nat.ceil_le, Nat.cast_mul, Nat.cast_ofNat]
      exact mul_le_mul_iff_right₀ two_pos
    rw [Nat.ceil_le, ← hle]
    omega
  have hlow := Nat.floor_le_ceil (2 * x)
  have hhigh := Nat.ceil_le_floor_add_one (2 * x)
  have htwice : 2 * (x / 2) = x := mul_div_cancel₀ x two_ne_zero
  rw [quarters, htwice, floor_of_double, hceil, quarters]
  omega

theorem quarters_add (n : Nat) {f : ℚ} (hf : 0 ≤ f) : quarters (n + f) = 4 * n + quarters f := by
  have htwice : 2 * ((n : ℚ) + f) = 2 * f + (2 * n : Nat) := by push_cast; ring
  rw [quarters, htwice, Nat.floor_add_natCast (by positivity), Nat.ceil_add_natCast (by positivity),
    quarters]
  omega

/-- The place of a proper fraction `r / d`, from comparing twice the remainder to `d`. -/
theorem quarters_fraction {r d : Nat} (hr : r < d) :
    quarters (r / d) = if r = 0 then 0 else if 2 * r < d then 1 else if 2 * r = d then 2
      else 3 := by
  have hd : (0 : ℚ) < d := by exact_mod_cast Nat.zero_lt_of_lt hr
  have hfloor : ⌊2 * ((r : ℚ) / d)⌋₊ = 2 * r / d := by
    rw [← mul_div_assoc]
    exact_mod_cast Nat.floor_div_eq_div (K := ℚ) (2 * r) d
  have hceil (k : Nat) : ⌈2 * ((r : ℚ) / d)⌉₊ ≤ k ↔ 2 * r ≤ k * d := by
    rw [Nat.ceil_le, ← mul_div_assoc, div_le_iff₀ hd]
    exact_mod_cast Iff.rfl
  have hhalf : 2 * r / d = if 2 * r < d then 0 else 1 := by
    split
    · next hlt => exact Nat.div_eq_of_lt hlt
    · next hle => exact Nat.div_eq_of_lt_le (by omega) (by omega)
  have h0 := hceil 0
  have h1 := hceil 1
  have h2 := hceil 2
  rw [quarters, hfloor, hhalf]
  split_ifs <;> omega

/-- The place of a fraction (`quarters`), from its quotient and its remainder. Both long division
and the printers decide in this way. -/
theorem quarters_div (n : Nat) {d : Nat} (hd : 0 < d) :
    quarters (n / d) = 4 * (n / d) +
      if n % d = 0 then 0 else if 2 * (n % d) < d then 1 else if 2 * (n % d) = d then 2 else 3 := by
  have hd' : (d : ℚ) ≠ 0 := by exact_mod_cast hd.ne'
  have hdiv : (n : ℚ) = d * (n / d : Nat) + (n % d : Nat) := by
    exact_mod_cast (Nat.div_add_mod n d).symm
  have hsplit : (n : ℚ) / d = (n / d : Nat) + (n % d : Nat) / d := by
    rw [div_eq_iff hd', add_mul, div_mul_cancel₀ _ hd', mul_comm _ (d : ℚ)]
    exact hdiv
  rw [hsplit, quarters_add _ (by positivity), quarters_fraction (Nat.mod_lt n hd)]

/-! ## Mantissas -/

/-- The mantissa that a shift leaves is rounded by its `code` alone. -/
theorem roundedMantissa_eq (m : ExtendedMantissa) : m.roundedMantissa = ofQuarters (code m) := by
  obtain ⟨k, r, s⟩ := m
  obtain ⟨h0, h1, h2, h3⟩ := ofQuarters_eq k
  cases r <;> cases s
  · exact h0.symm
  · exact h1.symm
  · exact h2.symm
  · exact h3.symm

/-- A mantissa that stands for `x` stands for `x / 2 ^ k` after a shift by `k` bits, up to what the
two kept bits can tell. -/
theorem code_shiftRight {m : ExtendedMantissa} {x : ℚ} (h : code m = quarters x) (k : Nat) :
    code (m >>> k) = quarters (x / 2 ^ k) := by
  show code (k.repeat ExtendedMantissa.shiftRightOne m) = _
  induction k with
  | zero =>
    rw [pow_zero, div_one]
    exact h
  | succ k ih =>
    show code (k.repeat ExtendedMantissa.shiftRightOne m).shiftRightOne = _
    rw [code_shiftRightOne, ih, pow_succ, ← div_div, quarters_half]

/-- A quotient with the accuracy of its remainder stands for the fraction: its `code` is that of
`quarters`. -/
theorem code_quotient (n : Nat) {d : Nat} (hd : 0 < d) :
    code (.ofMantissaAndAccuracy (n / d) (accuracyOfFraction (n % d) d)) = quarters (n / d) := by
  rw [quarters_div n hd]
  unfold accuracyOfFraction
  split
  · simp only [code, ExtendedMantissa.ofMantissaAndAccuracy, Bool.toNat_false]
  · rcases Nat.lt_trichotomy (2 * (n % d)) d with hlt | heq | hgt
    · rw [compare_lt_iff_lt.mpr hlt, if_pos hlt]
      rfl
    · rw [compare_eq_iff_eq.mpr heq, if_neg (by omega), if_pos heq]
      rfl
    · rw [compare_gt_iff_gt.mpr hgt, if_neg (by omega), if_neg (by omega)]
      rfl

theorem roundDiv_eq (n : Nat) {d : Nat} (hd : 0 < d) :
    Binary64.roundDiv n d = nearestInt (n / d) := by
  rw [nearestInt, quarters_div n hd]
  obtain ⟨h0, h1, h2, h3⟩ := ofQuarters_eq (n / d)
  unfold Binary64.roundDiv
  dsimp only
  rcases Nat.lt_trichotomy (2 * (n % d)) d with hlt | heq | hgt
  · rw [if_pos hlt, if_pos hlt]
    split
    · exact h0.symm
    · exact h1.symm
  · rw [if_neg (by omega), if_neg (by omega), if_neg (by omega), if_neg (by omega), if_pos heq]
    exact h2.symm
  · rw [if_neg (by omega), if_pos hgt, if_neg (by omega), if_neg (by omega), if_neg (by omega)]
    exact h3.symm

/-! ## The nearest double -/

/-- The unit of a number is two to this power: the exponent that leaves 53 bits, or the least one.
It is `scale` of the value instead of a mantissa and an exponent. -/
def grain (v : ℚ) : Int := max (Int.log 2 v - 52) (-1074)

/-- The nearest of all doubles to a positive number, as if there were no largest one. Arithmetic on
doubles is exact arithmetic followed by this (`mul_eq_nearest`, `div_eq_nearest`) and then by
`stored`. -/
def nearest (v : ℚ) : UnpackedFloat := settle .positive (nearestInt (v / 2 ^ grain v)) (grain v)

/-- The logarithm of a number between two neighbouring powers of two. -/
theorem log_eq {v : ℚ} {k : Int} (hlow : 2 ^ k ≤ v) (hhigh : v < 2 ^ (k + 1)) :
    Int.log 2 v = k := by
  have hv : 0 < v := lt_of_lt_of_le (by positivity) hlow
  have hle : k ≤ Int.log 2 v := (Int.zpow_le_iff_le_log (by decide) hv).mp (by exact_mod_cast hlow)
  have hlt : Int.log 2 v < k + 1 :=
    (Int.lt_zpow_iff_log_lt (by decide) hv).mp (by exact_mod_cast hhigh)
  omega

section
variable {v w : ℚ}

theorem grain_mono (hv : 0 < v) (hle : v ≤ w) : grain v ≤ grain w :=
  max_le_max_right _ (Int.sub_le_sub_right (Int.log_mono_right hv hle) 52)

/-- A number has fewer than `2 ^ 53` of its units. -/
theorem units_lt (v : ℚ) : v / 2 ^ grain v < (2 ^ 53 : Nat) := by
  have hlog : Int.log 2 v + 1 ≤ 53 + grain v := by
    have := Int.le_max_left (Int.log 2 v - 52) (-1074)
    unfold grain
    omega
  rw [div_lt_iff₀ (by positivity)]
  calc v
    _ < 2 ^ (Int.log 2 v + 1) := by exact_mod_cast Int.lt_zpow_succ_log_self (by decide : 1 < 2) v
    _ ≤ 2 ^ (53 + grain v) := zpow_le_zpow_right₀ one_le_two hlog
    _ = (2 ^ 53 : Nat) * 2 ^ grain v := by rw [zpow_add₀ two_ne_zero]; norm_num

/-- A number has at least `2 ^ 52` of its units, unless they are the least ones. -/
theorem le_units (hv : 0 < v) (hgrain : grain v ≠ -1074) :
    ((2 ^ 52 : Nat) : ℚ) ≤ v / 2 ^ grain v := by
  have hlog : 52 + grain v = Int.log 2 v := by
    unfold grain at hgrain ⊢
    omega
  rw [le_div_iff₀ (by positivity)]
  calc ((2 ^ 52 : Nat) : ℚ) * 2 ^ grain v
    _ = 2 ^ (52 + grain v) := by rw [zpow_add₀ two_ne_zero]; norm_num
    _ = 2 ^ Int.log 2 v := by rw [hlog]
    _ ≤ v := by exact_mod_cast Int.zpow_log_le_self (by decide : 1 < 2) hv

theorem nearestInt_units_le (v : ℚ) : nearestInt (v / 2 ^ grain v) ≤ 2 ^ 53 := by
  rw [← nearestInt_natCast (2 ^ 53)]
  exact nearestInt_mono (units_lt v).le

theorem le_nearestInt_units (hv : 0 < v) (hgrain : grain v ≠ -1074) :
    2 ^ 52 ≤ nearestInt (v / 2 ^ grain v) := by
  rw [← nearestInt_natCast (2 ^ 52)]
  exact nearestInt_mono (le_units hv hgrain)

/-- **Rounding keeps the order.** A number with the larger `grain` is at least the next power of
two, which is where the mantissas of the smaller one end. -/
theorem nearest_mono (hv : 0 < v) (hle : v ≤ w) : AtMost (nearest v) (nearest w) := by
  refine settle_mono ?_ (nearestInt_units_le v)
  -- either the units tell the two apart, or both are counted in the same unit
  rcases Int.lt_or_eq_of_le (grain_mono hv hle) with hlt | heq
  · have hleast : -1074 ≤ grain v := Int.le_max_right _ _
    exact .inr ⟨hlt, le_nearestInt_units (hv.trans_le hle) (by omega)⟩
  · refine .inl ⟨heq, nearestInt_mono ?_⟩
    rw [heq]
    gcongr

/-- The nearest double has a form in which it can be stored, `Canonical`, whether or not its
exponent is too large. -/
theorem canonical_nearest (hv : 0 < v) : Canonical (nearest v) := by
  refine canonical_settle (Int.le_max_right _ _) ?_ _
  by_cases hgrain : grain v = -1074
  · exact .inr hgrain
  · exact .inl (le_nearestInt_units hv hgrain)

end

/-! ## What the operations round to -/

section
variable {n : Nat} {e : Int} {a : Accuracy} {x : ℚ}

/-- The exponent that rounding chooses depends on the value alone, and not on how it is split into a
mantissa and an exponent. -/
theorem scale_eq_grain (hcode : code (.ofMantissaAndAccuracy n a) = quarters x) (hx : 0 < x)
    (hle : e ≤ scale n e) :
    scale n e = grain (x * 2 ^ e) := by
  -- the mantissa is the whole part of the value, whatever its accuracy
  have hfloor : ⌊x⌋₊ = n := by
    have hround := Bool.toNat_le (ExtendedMantissa.ofMantissaAndAccuracy n a).roundBit
    have hsticky := Bool.toNat_le (ExtendedMantissa.ofMantissaAndAccuracy n a).stickyBit
    rw [floor_of_quarters, ← hcode, code, mantissa_ofMantissaAndAccuracy]
    omega
  have hhigh : x < (n + 1 : Nat) := by
    rw [← hfloor]
    exact_mod_cast Nat.lt_floor_add_one x
  unfold grain scale at *
  rcases Nat.eq_zero_or_pos n with rfl | hn
  · -- less than one unit is left, and the unit is the least one
    have hlog : Int.log 2 (x * 2 ^ e) < e := by
      rw [← Int.lt_zpow_iff_log_lt (by decide) (by positivity)]
      push_cast at hhigh ⊢
      nlinarith [zpow_pos (two_pos : (0 : ℚ) < 2) e]
    rw [Nat.log2_zero] at hle ⊢
    omega
  · have hlow : (n : ℚ) ≤ x := by
      rw [← hfloor]
      exact Nat.floor_le hx.le
    -- the bits of the mantissa tell the power of two below the value
    have hlog : Int.log 2 (x * 2 ^ e) = n.log2 + e := by
      refine log_eq ?_ ?_
      · rw [zpow_add₀ two_ne_zero, zpow_natCast]
        have hpow : ((2 ^ n.log2 : Nat) : ℚ) ≤ n := by exact_mod_cast Nat.log2_self_le hn.ne'
        push_cast at hpow
        gcongr
        exact hpow.trans hlow
      · have hpow : ((n + 1 : Nat) : ℚ) ≤ (2 ^ (n.log2 + 1) : Nat) := by
          exact_mod_cast Nat.lt_log2_self
        rw [show (n.log2 : Int) + e + 1 = (n.log2 + 1 : Nat) + e by push_cast; ring,
          zpow_add₀ two_ne_zero, zpow_natCast]
        push_cast at hpow hhigh
        gcongr
        exact hhigh.trans_le hpow
    rw [hlog]

/-- What is rounded depends on the value alone: a mantissa with the accuracy of what was lost is
rounded to the double that is `nearest` to the exact value. -/
theorem rounded_eq_nearest (hcode : code (.ofMantissaAndAccuracy n a) = quarters x) (hx : 0 < x)
    (hle : e ≤ scale n e) :
    roundWithAccuracy Format.binary64 .positive n e a = nearest (x * 2 ^ e) := by
  have hscale := scale_eq_grain hcode hx hle
  have hshift : ((scale n e - e).toNat : Int) = scale n e - e := by omega
  have hunits : x / 2 ^ (scale n e - e).toNat = x * 2 ^ e / 2 ^ grain (x * 2 ^ e) := by
    rw [← hscale, ← zpow_natCast, hshift, zpow_sub₀ two_ne_zero, div_div_eq_mul_div]
  have hkept : keptAt (.ofMantissaAndAccuracy n a) e =
      nearestInt (x * 2 ^ e / 2 ^ grain (x * 2 ^ e)) := by
    rw [keptAt, mantissa_ofMantissaAndAccuracy, roundedMantissa_eq, code_shiftRight hcode, hunits]
    rfl
  rw [roundWithAccuracy_settles hle, hkept, nearest, hscale]

theorem rounded_exact (hn : 0 < n) (hle : e ≤ scale n e) :
    roundWithAccuracy Format.binary64 .positive n e .exact = nearest (n * 2 ^ e) :=
  rounded_eq_nearest ((code_exact n).trans (quarters_natCast n).symm) (by exact_mod_cast hn) hle

end

/-- What can be stored is `nearest` to itself, so only results of arithmetic are rounded. -/
theorem nearest_of_canonical {m : Nat} {e : Int} {hm : 0 < m}
    (h : Canonical (.finite .positive m e hm)) :
    nearest (m * 2 ^ e) = .finite .positive m e hm := by
  obtain ⟨hbits, hleast, hlong⟩ := h
  have hgrain : grain (m * 2 ^ e) = e := by
    have hscale : scale m e = e := by
      rcases hlong with hnormal | rfl
      · have hlog : m.log2 = 52 := by
          have := log2_of_le hnormal
          have := (Nat.log2_lt hm.ne').mpr hbits
          omega
        unfold scale
        omega
      · have hlog : m.log2 < 53 := (Nat.log2_lt hm.ne').mpr hbits
        unfold scale
        omega
    rw [← scale_eq_grain ((code_exact m).trans (quarters_natCast m).symm) (by exact_mod_cast hm)
      hscale.ge]
    exact hscale
  have hunits : (m : ℚ) * 2 ^ e / 2 ^ e = m := mul_div_cancel_right₀ _ (zpow_ne_zero e two_ne_zero)
  rw [nearest, hgrain, hunits, nearestInt_natCast, settle_of_lt hm hbits]

section
variable {m n : Nat} {e d : Int} {hm : 0 < m} {hn : 0 < n}

/-- A product is the double that is `nearest` to the product of the values. -/
theorem mul_eq_nearest (hu : Canonical (.finite .positive m e hm))
    (hv : Canonical (.finite .positive n d hn)) :
    UnpackedFloat.mul Format.binary64 (.finite .positive m e hm) (.finite .positive n d hn) =
      nearest (m * 2 ^ e * (n * 2 ^ d)) := by
  have hle : e + d ≤ scale (m * n) (e + d) := by
    by_cases hbits : 2 ^ 52 ≤ m * n
    · exact le_scale hbits _
    · -- both have the least exponent
      have he : e = -1074 := hu.2.2.resolve_left fun h =>
        hbits (Nat.le_trans h (Nat.le_mul_of_pos_right m hn))
      have hd : d = -1074 := hv.2.2.resolve_left fun h =>
        hbits (Nat.le_trans h (Nat.le_mul_of_pos_left n hm))
      have hleast : -1074 ≤ scale (m * n) (e + d) := Int.le_max_right _ _
      omega
  show roundWithAccuracy Format.binary64 .positive (m * n) (e + d) .exact = _
  rw [rounded_exact (Nat.mul_pos hm hn) hle, zpow_add₀ two_ne_zero]
  push_cast
  congr 1
  ring

/-- A quotient is the double that is `nearest` to the quotient of the values. -/
theorem div_eq_nearest :
    UnpackedFloat.div Format.binary64 (.finite .positive m e hm) (.finite .positive n d hn) =
      nearest (m * 2 ^ e / (n * 2 ^ d)) := by
  obtain ⟨t, hdiv, hle, -⟩ := div_finite (e := e) (d := d) hm hn
  have hpos : (0 : ℚ) < (m * 2 ^ t : Nat) / n := by positivity
  rw [hdiv, rounded_eq_nearest (code_quotient _ hn) hpos hle]
  congr 1
  rw [zpow_sub₀ two_ne_zero, zpow_sub₀ two_ne_zero, zpow_natCast]
  push_cast
  field_simp

end

/-! ## Storage -/

theorem nearest_cases (v : ℚ) :
    nearest v = .zero .positive ∨ ∃ m e hm, nearest v = .finite .positive m e hm := by
  unfold nearest
  generalize nearestInt (v / 2 ^ grain v) = m
  rcases Nat.eq_zero_or_pos m with rfl | hpos
  · exact .inl rfl
  rcases Nat.lt_or_ge m (2 ^ 53) with hlt | hle
  · exact .inr ⟨_, _, _, settle_of_lt hpos hlt _ _⟩
  · exact .inr ⟨_, _, _, settle_of_le hle _ _⟩

theorem stored_cases {u : UnpackedFloat} :
    stored u = u ∨ ∃ s, stored u = .infinity s ∧ sign u = s := by
  rcases u with s | _ | s | ⟨s, m, e, hm⟩
  · exact .inl rfl
  · exact .inl rfl
  · exact .inl rfl
  · by_cases he : 972 ≤ e
    · exact .inr ⟨s, if_pos he, rfl⟩
    · exact .inl (if_neg he)

theorem stored_nearest_ne_nan (v : ℚ) : stored (nearest v) ≠ .notANumber := by
  rcases stored_cases (u := nearest v) with hsame | ⟨s, hinfinite, -⟩
  · rcases nearest_cases v with hzero | ⟨m, e, hm, hfinite⟩
    · rw [hsame, hzero]
      exact nofun
    · rw [hsame, hfinite]
      exact nofun
  · rw [hinfinite]
    exact nofun

theorem sign_stored_nearest (v : ℚ) : sign (stored (nearest v)) = .positive := by
  have hsign : sign (nearest v) = .positive := by
    rcases nearest_cases v with hzero | ⟨m, e, hm, hfinite⟩
    · rw [hzero]
      rfl
    · rw [hfinite]
      rfl
  rcases stored_cases (u := nearest v) with hsame | ⟨s, hinfinite, rfl⟩
  · rw [hsame, hsign]
  · rw [hinfinite, hsign]
    rfl

theorem stored_stored (u : UnpackedFloat) : stored (stored u) = stored u := by
  rcases stored_cases (u := u) with hsame | ⟨s, hinfinite, -⟩
  · rw [hsame, hsame]
  · rw [hinfinite]
    rfl

theorem Canonical.stored {u : UnpackedFloat} (h : Canonical u) : Canonical (stored u) := by
  rcases stored_cases (u := u) with hsame | ⟨s, hinfinite, -⟩
  · rwa [hsame]
  · rw [hinfinite]
    trivial

/-! ## Doubles and their values -/

/-- The value of a positive double that is finite. Zero, the infinities and what is not a number
have none. -/
def Exactly (x : Float) (v : ℚ) : Prop :=
  ∃ m e hm, x.toModel.unpack = .finite .positive m e hm ∧ v = m * 2 ^ e

/-- The double is the one for a positive number: the `nearest` one, or infinite if that is too
large. -/
def Rounds (x : Float) (v : ℚ) : Prop := x.toModel.unpack = stored (nearest v)

section
variable {x y : Float} {v w : ℚ}

theorem Exactly.pos (h : Exactly x v) : 0 < v := by
  obtain ⟨m, e, hm, -, rfl⟩ := h
  positivity

theorem Exactly.rounds (h : Exactly x v) : Rounds x v := by
  have hcanonical := canonical_unpack x
  have hstored := stored_unpack x
  obtain ⟨m, e, hm, hx, rfl⟩ := h
  rw [hx] at hcanonical hstored
  rw [Rounds, nearest_of_canonical hcanonical, hstored, hx]

/-- The product of two doubles, by their values. It need not be finite, so it only `Rounds`. -/
theorem Exactly.mul (hx : Exactly x v) (hy : Exactly y w) : Rounds (x * y) (v * w) := by
  have hpos := mul_pos hx.pos hy.pos
  have hcx := canonical_unpack x
  have hcy := canonical_unpack y
  obtain ⟨m, e, hm, hux, rfl⟩ := hx
  obtain ⟨n, d, hn, huy, rfl⟩ := hy
  rw [hux] at hcx
  rw [huy] at hcy
  show (Float.Model.pack (UnpackedFloat.mul Format.binary64 x.toModel.unpack
    y.toModel.unpack)).unpack = _
  rw [hux, huy, mul_eq_nearest hcx hcy]
  exact unpack_pack (canonical_nearest hpos)

theorem Exactly.div (hx : Exactly x v) (hy : Exactly y w) : Rounds (x / y) (v / w) := by
  have hpos := div_pos hx.pos hy.pos
  obtain ⟨m, e, hm, hux, rfl⟩ := hx
  obtain ⟨n, d, hn, huy, rfl⟩ := hy
  show (Float.Model.pack (UnpackedFloat.div Format.binary64 x.toModel.unpack
    y.toModel.unpack)).unpack = _
  rw [hux, huy, div_eq_nearest]
  exact unpack_pack (canonical_nearest hpos)

/-- A number that can be stored is what rounds to it: where the result fits into 53 bits, no
rounding takes place. -/
theorem Rounds.exactly {m : Nat} {e : Int} (h : Rounds x (m * 2 ^ e)) (hm : 0 < m)
    (hcanonical : Canonical (.finite .positive m e hm)) (hmost : e < 972) :
    Exactly x (m * 2 ^ e) := by
  refine ⟨m, e, hm, ?_, rfl⟩
  rw [h, nearest_of_canonical hcanonical]
  exact if_neg (by omega)

theorem Exactly.div_self (h : Exactly x v) : Exactly (x / x) 1 := by
  have hvalue : (1 : ℚ) = (4503599627370496 : Nat) * 2 ^ (-52 : Int) := by norm_num
  have hone := h.div h
  rw [div_self_eq_one₀.mpr h.pos.ne', hvalue] at hone
  rw [hvalue]
  exact hone.exactly (by decide) ⟨by decide, by decide, .inl (Nat.le_refl _)⟩ (by decide)

/-! ### Order -/

/-- `AtMost` agrees with the order of `Doubles.place`, which all comparisons of doubles go by. -/
theorem AtMost.place_le {u t : UnpackedFloat} (h : AtMost u t) :
    Doubles.place u ≤ Doubles.place t := by
  cases h with
  | refl => exact le_refl _
  | zero =>
    dsimp only [Doubles.place]
    simp [Prod.Lex.toLex_le_toLex]
  | infinite =>
    rcases u with (_ | _) | _ | _ | ⟨(_ | _), m, e, hm⟩ <;> dsimp only [Doubles.place] <;>
      simp [Prod.Lex.toLex_le_toLex]
  | shorter h =>
    dsimp only [Doubles.place]
    simp [Prod.Lex.toLex_le_toLex, h]
  | smaller h =>
    dsimp only [Doubles.place]
    simp [Prod.Lex.toLex_le_toLex, h]

/-- What is positive shares its place with nothing else; only the two zeros do. -/
theorem eq_of_place {u t : UnpackedFloat}
    (hu : u = .infinity .positive ∨ ∃ m e hm, u = .finite .positive m e hm)
    (h : Doubles.place u = Doubles.place t) :
    u = t := by
  rcases hu with rfl | ⟨m, e, hm, rfl⟩ <;> rcases t with (_ | _) | _ | _ | ⟨(_ | _), n, d, hn⟩ <;>
    dsimp only [Doubles.place] at h <;> simp at h
  · rfl
  · exact finite_congr h.2 h.1

theorem Rounds.isNaN_eq_false (h : Rounds x v) : x.isNaN = false := by
  rw [Doubles.isNaN_eq_false_iff, h]
  exact stored_nearest_ne_nan v

/-- Doubles for two numbers are in the order of the numbers, or equal. -/
theorem Rounds.le (hx : Rounds x v) (hy : Rounds y w) (hv : 0 < v) (hle : v ≤ w) : x ≤ y := by
  refine Doubles.le_iff.mpr ⟨hx.isNaN_eq_false, hy.isNaN_eq_false, ?_⟩
  rw [Doubles.position, Doubles.position, hx, hy]
  exact (nearest_mono hv hle).stored.place_le

theorem Exactly.eq_of_position (hx : Exactly x v) (hy : Exactly y w)
    (h : Doubles.position x = Doubles.position y) :
    v = w := by
  obtain ⟨m, e, hm, hux, rfl⟩ := hx
  obtain ⟨n, d, hn, huy, rfl⟩ := hy
  rw [Doubles.position, Doubles.position, hux, huy] at h
  cases eq_of_place (.inr ⟨m, e, hm, rfl⟩) h
  rfl

/-- The order of doubles is that of their values. From left to right this needs that no two of them
share a position. -/
theorem Exactly.le_iff (hx : Exactly x v) (hy : Exactly y w) : x ≤ y ↔ v ≤ w := by
  refine ⟨fun hle => ?_, hx.rounds.le hy.rounds hx.pos⟩
  by_contra hlt
  have hback : y ≤ x := hy.rounds.le hx.rounds hy.pos (not_le.mp hlt).le
  have heq := le_antisymm (Doubles.le_iff.mp hle).2.2 (Doubles.le_iff.mp hback).2.2
  exact hlt (hx.eq_of_position hy heq).le

/-- The positive doubles are infinity and those that have a value (`Exactly`). -/
theorem pos_iff : 0 < x ↔ x.toModel.unpack = .infinity .positive ∨ ∃ v, Exactly x v := by
  have hzero : (0 : Float).toModel.unpack = .zero .positive := rfl
  rw [lt_iff_unpacked, hzero]
  constructor
  · intro hlt
    cases hx : x.toModel.unpack with
    | infinity s =>
      rw [hx] at hlt
      cases s with
      | positive => exact .inl rfl
      | negative => cases hlt
    | notANumber =>
      rw [hx] at hlt
      cases hlt
    | zero s =>
      rw [hx] at hlt
      cases hlt
    | finite s m e hm =>
      rw [hx] at hlt
      cases s with
      | positive => exact .inr ⟨_, m, e, hm, hx, rfl⟩
      | negative => cases hlt
  · rintro (hx | ⟨v, m, e, hm, hx, -⟩)
    · rw [hx]
      rfl
    · rw [hx]
      rfl

theorem Exactly.zero_lt (h : Exactly x v) : 0 < x := pos_iff.mpr (.inr ⟨v, h⟩)

/-- What is positive and not above a finite double is finite, hence has a value (`Exactly`). -/
theorem exactly_of_le (hx : 0 < x) (hle : x ≤ y) (hy : Exactly y w) : ∃ v, Exactly x v := by
  refine (pos_iff.mp hx).resolve_left fun hinfinite => ?_
  obtain ⟨n, d, hn, huy, rfl⟩ := hy
  have hplace := (Doubles.le_iff.mp hle).2.2
  rw [Doubles.position, Doubles.position, hinfinite, huy] at hplace
  dsimp only [Doubles.place] at hplace
  simp [Prod.Lex.toLex_le_toLex] at hplace

end

/-! ### Counts -/

theorem mul_one_of_canonical {u : UnpackedFloat} (hu : Canonical u) (hsign : sign u = .positive) :
    UnpackedFloat.mul Format.binary64 u one = u := by
  rcases u with s | _ | s | ⟨s, m, e, hm⟩
  · cases hsign
    rfl
  · rfl
  · cases hsign
    rfl
  · cases hsign
    have hone : Canonical one := ⟨by decide, by decide, .inl (Nat.le_refl _)⟩
    have hvalue : ((4503599627370496 : Nat) : ℚ) * 2 ^ (-52 : Int) = 1 := by norm_num
    rw [one, mul_eq_nearest hu hone, hvalue, mul_one, nearest_of_canonical hu]

section
variable {n : Nat}

/-- A count becomes the double that is `nearest` to it, on either path of its conversion. -/
theorem rounds_natCast (hn : 0 < n) : Rounds (n : Float) n := by
  have hcount : UnpackedFloat.normalize Format.binary64 n 0 .positive = nearest n := by
    obtain ⟨t, hround, hle⟩ := round_eq hn .positive 0
    rw [normalize_natCast, if_neg hn.ne', hround, rounded_exact (by positivity) hle]
    congr 1
    rw [zero_sub, zpow_neg, zpow_natCast]
    push_cast
    field_simp
  rcases unpack_natCast n with hunpack | ⟨hbits, hunpack⟩
  · have hcanonical : Canonical (nearest n) := canonical_nearest (by exact_mod_cast hn)
    rw [Rounds, hunpack, hcount, mul_one_of_canonical hcanonical.stored (sign_stored_nearest n),
      stored_stored]
  · rw [Rounds, hunpack, rounded_exact (by positivity) (le_scale hbits _)]
    congr 2
    rw [zpow_neg]
    push_cast
    field_simp

/-- A count of at most 53 bits is not changed by becoming a double. -/
theorem exactly_natCast (hn : 0 < n) (hmost : n < 2 ^ 53) : Exactly (n : Float) n := by
  have hlog : n.log2 < 53 := (Nat.log2_lt hn.ne').mpr hmost
  have hlow : 2 ^ 52 ≤ n * 2 ^ (52 - n.log2) := by
    calc 2 ^ 52
      _ = 2 ^ n.log2 * 2 ^ (52 - n.log2) := by rw [← Nat.pow_add]; congr 1; omega
      _ ≤ n * 2 ^ (52 - n.log2) := Nat.mul_le_mul_right _ (Nat.log2_self_le hn.ne')
  have hhigh : n * 2 ^ (52 - n.log2) < 2 ^ 53 := by
    calc n * 2 ^ (52 - n.log2)
      _ < 2 ^ (n.log2 + 1) * 2 ^ (52 - n.log2) :=
        Nat.mul_lt_mul_of_pos_right Nat.lt_log2_self (by positivity)
      _ = 2 ^ 53 := by rw [← Nat.pow_add]; congr 1; omega
  have hvalue : (n : ℚ) = (n * 2 ^ (52 - n.log2) : Nat) * 2 ^ (-(52 - n.log2 : Nat) : Int) := by
    rw [zpow_neg, zpow_natCast]
    push_cast
    field_simp
  have hcanonical :
      Canonical (.finite .positive (n * 2 ^ (52 - n.log2)) (-(52 - n.log2 : Nat) : Int)
      (by positivity)) :=
    ⟨hhigh, by omega, .inl hlow⟩
  have hrounds := rounds_natCast hn
  rw [hvalue] at hrounds ⊢
  exact hrounds.exactly _ hcanonical (by omega)

end

/-! ### Equality -/

/-- A double is determined by the parts (`Binary64.decode`) that the printers read off its bits. -/
theorem bits_of_decode {x y : Float} (hx : Binary64.decode x ≠ .nan)
    (h : Binary64.decode x = Binary64.decode y) :
    x.toBits.toNat = y.toBits.toNat := by
  have hxlt : x.toBits.toNat < 2 ^ 64 := x.toBits.toNat_lt
  have hylt : y.toBits.toNat < 2 ^ 64 := y.toBits.toNat_lt
  unfold Binary64.decode Binary64.leastExponent at h hx
  dsimp only [Nat.pow_eq] at h hx
  simp only [beq_iff_eq] at h hx
  generalize x.toBits.toNat = b at *
  generalize y.toBits.toNat = c at *
  split_ifs at h hx <;> simp at h hx <;> omega

/-- A double that is a number is determined by its value: `bits_of_decode` gives its bits, which are
all there is. -/
theorem eq_of_unpack {x y : Float} (hx : x.toModel.unpack ≠ .notANumber)
    (h : x.toModel.unpack = y.toModel.unpack) : x = y := by
  have hdecode : Binary64.decode x = Binary64.decode y := by rw [decode_eq, decode_eq, h]
  have hnumber : Binary64.decode x ≠ .nan := by
    rw [decode_eq]
    cases hu : x.toModel.unpack with
    | notANumber => exact absurd hu hx
    | _ => exact nofun
  have hbits : x.toModel.toBits = y.toModel.toBits :=
    UInt64.toNat_inj.mp (bits_of_decode hnumber hdecode)
  obtain ⟨⟨b, hb⟩⟩ := x
  obtain ⟨⟨c, hc⟩⟩ := y
  cases hbits
  rfl

/-- What is positive is told by its position, so two such doubles that are in order both ways are
equal. -/
theorem eq_of_position {x y : Float} (hx : 0 < x) (h : Doubles.position x = Doubles.position y) :
    x = y := by
  apply eq_of_unpack (Doubles.isNaN_eq_false_iff.mp (Doubles.lt_iff.mp hx).2.1)
  refine eq_of_place ?_ h
  rcases pos_iff.mp hx with hinfinite | ⟨v, m, e, hm, hfinite, -⟩
  · exact .inl hinfinite
  · exact .inr ⟨m, e, hm, hfinite⟩

end Headroom.Rounding
