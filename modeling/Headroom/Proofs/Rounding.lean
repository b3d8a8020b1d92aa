import Headroom.Number.Arithmetic
import Mathlib.Algebra.Order.Ring.Int
import Mathlib.Data.Nat.Log
import Mathlib.Tactic.Positivity
import Mathlib.Tactic.Ring

/-!
# Doubles that are rounded keep their order

A share of a count is computed with doubles, so it is rounded, can become too small to be told from
zero, or too large to be finite. None of this puts a smaller share above a larger one.

* **`Unsigned`**: counts and their sums have no sign; what is rounded, stored and read again keeps
  its sign.
* **`rounded_mono`**: of two mantissas with one exponent the larger one is not rounded to less.
* **`mul_lt_of_mul_lt`**: what exceeds the product with the larger factor exceeds the product with
  the smaller one.
-/

namespace Headroom.Rounding

open Float.Model Float.Model.UnpackedFloat

/-! ## Signs -/

/-- The sign of a value. What is not a number has none, and is stored without one, so it counts as
positive here. -/
def sign : UnpackedFloat → Sign
  | .notANumber => .positive
  | .infinity s | .zero s | .finite s _ _ _ => s

/-- A double without a sign, which may still be infinite or not a number. -/
def Unsigned (x : Float) : Prop := sign x.toModel.unpack = .positive

@[simp] theorem unpackSign_packComponents (f : Format) (s : Sign) (e : BitVec f.exponentBits)
    (m : BitVec f.mantissaBitsWithoutImplicit) :
    unpackSign (packComponents f s e m) = s.toBitVec := by
  refine BitVec.eq_of_getLsbD_eq fun i hi => ?_
  obtain rfl : i = 0 := by omega
  unfold unpackSign
  simp [packComponents, BitVec.getLsbD_append, BitVec.getElem_append]

/-- Packing stores the `sign` of a value in the first bit, whatever else it stores. -/
theorem unpackSign_pack (f : Format) (u : UnpackedFloat) :
    unpackSign (pack f u) = (sign u).toBitVec := by
  fun_cases pack f u
  all_goals exact unpackSign_packComponents f _ _ _

/-- The exponent that the bits of a value stand for, unless they are all zero or all one. -/
def storedExponent {f : Format} (b : BitVec f.numBits) : Int :=
  (unpackExponent b).toNat - (f.exponentBias + f.mantissaBitsWithoutImplicit)

/-- What `unpack` can return, by the bits of the exponent: all of them one, all of them zero, or
neither. In the last case the mantissa has the implicit bit in front. -/
theorem unpack_cases {f : Format} (b : BitVec f.numBits) {P : UnpackedFloat → Prop}
    (infinity : P (.infinity (.ofBitVec (unpackSign b)))) (notANumber : P .notANumber)
    (zero : P (.zero (.ofBitVec (unpackSign b))))
    (subnormal : unpackExponent b = 0#f.exponentBits → ∀ hpos,
      P (.finite (.ofBitVec (unpackSign b)) (unpackMantissa b).toNat (storedExponent b + 1) hpos))
    (normal : unpackExponent b ≠ -1#f.exponentBits → unpackExponent b ≠ 0#f.exponentBits → ∀ hpos,
      P (.finite (.ofBitVec (unpackSign b)) (1#1 ++ unpackMantissa b).toNat (storedExponent b)
        hpos)) :
    P (unpack f b) := by
  unfold UnpackedFloat.unpack
  dsimp only
  by_cases hlast : unpackExponent b = -1#f.exponentBits
  · rw [if_pos hlast]
    by_cases hmantissa : unpackMantissa b = 0#f.mantissaBitsWithoutImplicit
    · rw [if_pos hmantissa]
      exact infinity
    · rw [if_neg hmantissa]
      exact notANumber
  · rw [if_neg hlast]
    by_cases hleast : unpackExponent b = 0#f.exponentBits
    · rw [if_pos hleast]
      by_cases hmantissa : unpackMantissa b = 0#f.mantissaBitsWithoutImplicit
      · rw [dif_pos hmantissa]
        exact zero
      · rw [dif_neg hmantissa]
        exact subnormal hleast _
    · rw [if_neg hleast]
      exact normal hlast hleast _

theorem sign_unpack {f : Format} {b : BitVec f.numBits} (h : unpackSign b = 0#1) :
    sign (unpack f b) = .positive := by
  have hpositive : Sign.ofBitVec (unpackSign b) = .positive := if_pos h
  exact unpack_cases (P := fun u => sign u = .positive) b hpositive rfl hpositive
    (fun _ _ => hpositive) fun _ _ _ => hpositive

/-- A value without a sign has none after it is stored and read again. With this the rules for signs
are needed for `UnpackedFloat` only, and hold of doubles. -/
theorem sign_unpack_pack {u : UnpackedFloat} (h : sign u = .positive) :
    sign (Float.Model.unpack (Float.Model.pack u)) = .positive :=
  sign_unpack ((unpackSign_pack Format.binary64 u).trans (by rw [h]; rfl))

theorem sign_roundWithAccuracy (f : Format) (s : Sign) (m : Nat) (e : Int) (a : Accuracy) :
    sign (roundWithAccuracy f s m e a) = s :=
  (apply_dite sign _ _ _).trans (ite_self s)

theorem sign_normalize {f : Format} {m : Int} (hm : 0 ≤ m) (e : Int) :
    sign (UnpackedFloat.normalize f m e .positive) = .positive := by
  unfold UnpackedFloat.normalize
  split
  · next hlt => exact absurd (compare_lt_iff_lt.mp hlt) hm.not_gt
  · rfl
  · exact sign_roundWithAccuracy ..

/-- The sum of two values without a sign has none. Only two finite summands need an argument, since
`normalize` reads the sign off a whole number. -/
theorem sign_add {f : Format} {u v : UnpackedFloat} (hu : sign u = .positive)
    (hv : sign v = .positive) :
    sign (UnpackedFloat.add f u v) = .positive := by
  cases u <;> cases v <;> cases hu <;> cases hv
  case finite.finite =>
    exact sign_normalize (Int.add_nonneg (Int.natCast_nonneg _) (Int.natCast_nonneg _)) _
  all_goals rfl

theorem sign_mul {f : Format} {u v : UnpackedFloat} (hu : sign u = .positive)
    (hv : sign v = .positive) :
    sign (UnpackedFloat.mul f u v) = .positive := by
  cases u <;> cases v <;> cases hu <;> cases hv
  case finite.finite => exact sign_roundWithAccuracy ..
  all_goals rfl

theorem Unsigned.add {x y : Float} (hx : Unsigned x) (hy : Unsigned y) : Unsigned (x + y) :=
  sign_unpack_pack (sign_add hx hy)

theorem sign_ofScientific (f : Format) (n : Nat) :
    sign (UnpackedFloat.ofScientific f n 0) = .positive := by
  unfold UnpackedFloat.ofScientific
  by_cases hn : n = 0
  · rw [dif_pos hn]
    rfl
  · have hpow : (0 : Int) ≤ 2 ^ f.exponentBits := by positivity
    rw [dif_neg hn, if_neg (by omega), if_neg (by omega), if_pos (Int.le_refl 0)]
    exact sign_mul rfl rfl

/-- A count that is converted to a double has no sign, on either of the two paths that
`Float.ofScientific` takes. -/
theorem unsigned_natCast (n : Nat) : Unsigned (n : Float) := by
  show Unsigned (Float.ofScientific n false 0)
  have hone : Float.exactlyRepresentablePowersOfTen[0] = Float.ofBits 4607182418800017408 := rfl
  unfold Float.ofScientific
  split
  · dsimp only
    rw [if_neg Bool.false_ne_true, hone]
    refine sign_unpack_pack (sign_mul (sign_unpack_pack ?_) rfl)
    exact sign_normalize (Int.natCast_nonneg _) _
  · exact sign_unpack_pack (sign_ofScientific _ n)

/-! ## Mantissas

A mantissa that is shifted to the right keeps two bits of what it loses. With them it is a number,
four times what it stands for, and neither a shift nor the rounding after it changes the order of
two such numbers. -/

/-- A mantissa with the two bits that a shift keeps, as one number: four times what it stands for.
The round bit counts half a unit and the sticky bit something between nothing and that. -/
def code (m : ExtendedMantissa) : Nat := 4 * m.mantissa + 2 * m.roundBit.toNat + m.stickyBit.toNat

/-- Shifting halves the `code`, except that its last bit only says whether anything was lost. -/
theorem code_shiftRightOne (m : ExtendedMantissa) :
    code m.shiftRightOne = 2 * (code m / 4) + min (code m % 4) 1 := by
  obtain ⟨k, r, s⟩ := m
  rcases Nat.mod_two_eq_zero_or_one k with hk | hk <;> cases r <;> cases s <;>
    simp [code, ExtendedMantissa.shiftRightOne, hk] <;> omega

theorem code_shiftRightOne_mono {m n : ExtendedMantissa} (h : code m ≤ code n) :
    code m.shiftRightOne ≤ code n.shiftRightOne := by
  rw [code_shiftRightOne, code_shiftRightOne]
  omega

/-- Shifting two mantissas by the same number of bits does not change the order of their `code`. -/
theorem code_shiftRight_mono {m n : ExtendedMantissa} (h : code m ≤ code n) (k : Nat) :
    code (m >>> k) ≤ code (n >>> k) := by
  show code (k.repeat ExtendedMantissa.shiftRightOne m) ≤
    code (k.repeat ExtendedMantissa.shiftRightOne n)
  induction k with
  | zero => exact h
  | succ k ih => exact code_shiftRightOne_mono ih

/-- Rounding to the nearest even mantissa does not change the order of two codes. -/
theorem roundedMantissa_mono {m n : ExtendedMantissa} (h : code m ≤ code n) :
    m.roundedMantissa ≤ n.roundedMantissa := by
  obtain ⟨m, r, s⟩ := m
  obtain ⟨n, r', s'⟩ := n
  cases r <;> cases s <;> cases r' <;> cases s' <;>
    simp [code, ExtendedMantissa.roundedMantissa, ExtendedMantissa.accuracy,
      Accuracy.roundToNearestEven] at h ⊢ <;>
    omega

/-- Rounding goes to one of the two mantissas around the value. -/
theorem roundedMantissa_bounds (m : ExtendedMantissa) :
    m.mantissa ≤ m.roundedMantissa ∧ m.roundedMantissa ≤ m.mantissa + 1 := by
  obtain ⟨m, r, s⟩ := m
  cases r <;> cases s <;>
    simp [ExtendedMantissa.roundedMantissa, ExtendedMantissa.accuracy, Accuracy.roundToNearestEven]
  omega

theorem mantissa_shiftRight (m : ExtendedMantissa) (k : Nat) :
    (m >>> k).mantissa = m.mantissa / 2 ^ k := by
  show (k.repeat ExtendedMantissa.shiftRightOne m).mantissa = _
  induction k with
  | zero => simp [Nat.repeat]
  | succ k ih =>
    show (k.repeat ExtendedMantissa.shiftRightOne m).mantissa / 2 = _
    rw [ih, Nat.div_div_eq_div_mul, Nat.pow_succ]

/-! ## Rounding -/

/-- The exponent that a product with at least 53 bits is brought to: the one that leaves 53 bits,
but none below the least exponent of a double. -/
def scale (n : Nat) (e : Int) : Int := max ((n.log2 : Int) + e - 52) (-1074)

/-- The mantissa of the product at that exponent. It can be one bit too long, when
rounding carries. -/
def mantissaAt (n : Nat) (e : Int) : Nat :=
  (ExtendedMantissa.mk n false false >>> (scale n e - e).toNat).roundedMantissa

/-- A mantissa that became one bit too long gives a bit back. That bit is zero, since only `2 ^ 53`
can arise. -/
def settle (s : Sign) (m : Nat) (e : Int) : UnpackedFloat :=
  if h : m = 0 then .zero s
  else if m < 2 ^ 53 then .finite s m e (Nat.pos_of_ne_zero h)
  else .finite s (2 ^ 52) (e + 1) (by decide)

theorem settle_of_lt {m : Nat} (hpos : 0 < m) (hlt : m < 2 ^ 53) (s : Sign) (e : Int) :
    settle s m e = .finite s m e hpos := by
  rw [settle, dif_neg hpos.ne', if_pos hlt]

theorem settle_of_le {m : Nat} (hle : 2 ^ 53 ≤ m) (s : Sign) (e : Int) :
    settle s m e = .finite s (2 ^ 52) (e + 1) (by decide) := by
  rw [settle, dif_neg (by omega), if_neg (by omega)]

theorem log2_of_le {n : Nat} (hn : 2 ^ 52 ≤ n) : 52 ≤ n.log2 :=
  (Nat.le_log2 (by omega)).mpr hn

theorem mantissaBits_binary64 : Format.binary64.mantissaBits = 53 := rfl

theorem targetExponent_eq (n : Nat) (e : Int) :
    Format.binary64.targetExponent (totalExponent n e) = scale n e := by
  simp only [Format.targetExponent, totalExponent, mantissaBits_binary64, Format.minExponent, scale]
  omega

theorem le_scale {n : Nat} (hn : 2 ^ 52 ≤ n) (e : Int) : e ≤ scale n e := by
  have := log2_of_le hn
  unfold scale
  omega

theorem mantissa_ofMantissaAndAccuracy (n : Nat) (a : Accuracy) :
    (ExtendedMantissa.ofMantissaAndAccuracy n a).mantissa = n := by
  cases a with
  | exact => rfl
  | inexact o => cases o <;> rfl

/-- The shift before rounding, in terms of `scale`. -/
theorem shiftToTargetExponent_eq (n : Nat) (e : Int) (a : Accuracy) :
    shiftToTargetExponent Format.binary64 n e a =
      (ExtendedMantissa.ofMantissaAndAccuracy n a >>> (scale n e - e).toNat,
        e + (scale n e - e).toNat) := by
  unfold shiftToTargetExponent
  dsimp only
  rw [targetExponent_eq]
  rfl

/-- What is kept of a mantissa with two more bits, at the exponent that `scale` chooses for it. -/
def keptAt (m : ExtendedMantissa) (e : Int) : Nat :=
  (m >>> (scale m.mantissa e - e).toNat).roundedMantissa

/-- At most 53 bits are kept (`keptAt`), or a single bit more if all of them were carried over. -/
theorem keptAt_le {m : ExtendedMantissa} {e : Int} (hle : e ≤ scale m.mantissa e) :
    keptAt m e ≤ 2 ^ 53 := by
  have hshift : m.mantissa.log2 ≤ 52 + (scale m.mantissa e - e).toNat := by
    unfold scale at *
    omega
  have hbelow : m.mantissa / 2 ^ (scale m.mantissa e - e).toNat < 2 ^ 53 := by
    rw [Nat.div_lt_iff_lt_mul (by positivity), ← Nat.pow_add]
    exact Nat.lt_of_lt_of_le Nat.lt_log2_self (Nat.pow_le_pow_right (by decide) (by omega))
  have hround := (roundedMantissa_bounds (m >>> (scale m.mantissa e - e).toNat)).2
  rw [mantissa_shiftRight] at hround
  exact Nat.le_trans hround hbelow

/-- All 53 bits are kept, unless the exponent is the least one. -/
theorem le_keptAt {m : ExtendedMantissa} {e : Int} (hle : e ≤ scale m.mantissa e)
    (hscale : scale m.mantissa e ≠ -1074) : 2 ^ 52 ≤ keptAt m e := by
  have hshift : m.mantissa.log2 = 52 + (scale m.mantissa e - e).toNat := by
    unfold scale at *
    omega
  have hsome : m.mantissa ≠ 0 := by
    intro hzero
    rw [hzero, Nat.log2_zero] at hshift
    omega
  have habove : 2 ^ 52 ≤ m.mantissa / 2 ^ (scale m.mantissa e - e).toNat := by
    rw [Nat.le_div_iff_mul_le (by positivity), ← Nat.pow_add, ← hshift]
    exact Nat.log2_self_le hsome
  have hround := (roundedMantissa_bounds (m >>> (scale m.mantissa e - e).toNat)).1
  rw [mantissa_shiftRight] at hround
  exact Nat.le_trans habove hround

theorem mantissaAt_le (n : Nat) (e : Int) (hle : e ≤ scale n e) : mantissaAt n e ≤ 2 ^ 53 :=
  keptAt_le (m := ⟨n, false, false⟩) hle

theorem le_mantissaAt {n : Nat} (hn : 2 ^ 52 ≤ n) {e : Int} (hscale : scale n e ≠ -1074) :
    2 ^ 52 ≤ mantissaAt n e :=
  le_keptAt (m := ⟨n, false, false⟩) (le_scale hn e) hscale

/-- Two finite values with the same mantissa and exponent are the same. The proof that the mantissa
is positive is a field of the value, so neither can be rewritten in place. -/
theorem finite_congr {s : Sign} {m m' : Nat} {e e' : Int} {h : 0 < m} {h' : 0 < m'} (hm : m = m')
    (he : e = e') : UnpackedFloat.finite s m e h = .finite s m' e' h' := by
  subst hm he
  rfl

/-- Rounding, as `keptAt` and then `settle`: a mantissa of at most 53 bits stays, and one of 54 bits
loses its last one. The second shift of `roundWithAccuracy` does nothing else. -/
theorem roundWithAccuracy_settles {n : Nat} {e : Int} (hle : e ≤ scale n e) (s : Sign)
    (a : Accuracy) :
    roundWithAccuracy Format.binary64 s n e a =
      settle s (keptAt (.ofMantissaAndAccuracy n a) e) (scale n e) := by
  have hmantissa := mantissa_ofMantissaAndAccuracy n a
  have hexponent : e + (scale n e - e).toNat = scale n e := by omega
  have hmost : keptAt (.ofMantissaAndAccuracy n a) e ≤ 2 ^ 53 := keptAt_le (by rwa [hmantissa])
  have hleast : -1074 ≤ scale n e := Int.le_max_right _ _
  have hkept : (ExtendedMantissa.ofMantissaAndAccuracy n a >>>
      (scale n e - e).toNat).roundedMantissa =
        keptAt (.ofMantissaAndAccuracy n a) e := by rw [keptAt, hmantissa]
  unfold roundWithAccuracy
  rw [shiftToTargetExponent_eq]
  dsimp only
  rw [hexponent, hkept, shiftToTargetExponent_eq]
  dsimp only
  generalize keptAt (.ofMantissaAndAccuracy n a) e = m at *
  generalize scale n e = e at *
  -- the second shift has nothing to do, unless rounding has carried into a new bit
  rcases Nat.lt_or_eq_of_le hmost with hlt | rfl
  · have hlog : m.log2 ≤ 52 := by
      rcases Nat.eq_zero_or_pos m with rfl | hpos
      · decide
      · have := (Nat.log2_lt hpos.ne').mpr hlt
        omega
    have hstay : (scale m e - e).toNat = 0 := by
      unfold scale
      omega
    have hsame : (ExtendedMantissa.ofMantissaAndAccuracy m .exact >>>
        (scale m e - e).toNat).mantissa = m := by
      rw [mantissa_shiftRight, mantissa_ofMantissaAndAccuracy, hstay, Nat.pow_zero, Nat.div_one]
    by_cases hzero : m = 0
    · rw [settle, dif_pos hzero, dif_pos (hsame.trans hzero)]
    · rw [settle_of_lt (Nat.pos_of_ne_zero hzero) hlt, dif_neg (by rwa [hsame])]
      exact finite_congr hsame (by omega)
  · have hback : (scale (2 ^ 53) e - e).toNat = 1 := by
      unfold scale
      rw [Nat.log2_two_pow]
      omega
    have hhalf : (ExtendedMantissa.ofMantissaAndAccuracy (2 ^ 53) .exact >>>
        (scale (2 ^ 53) e - e).toNat).mantissa = 2 ^ 52 := by
      rw [mantissa_shiftRight, mantissa_ofMantissaAndAccuracy, hback]
      rfl
    rw [settle_of_le (Nat.le_refl _), dif_neg (by rw [hhalf]; decide)]
    exact finite_congr hhalf (by omega)

theorem roundWithAccuracy_eq {n : Nat} (hn : 2 ^ 52 ≤ n) (s : Sign) (e : Int) :
    roundWithAccuracy Format.binary64 s n e .exact = settle s (mantissaAt n e) (scale n e) :=
  roundWithAccuracy_settles (le_scale hn e) s .exact

/-! ## Order -/

/-- At most as large, of two values without a sign. A value with the smaller exponent is the smaller
one whatever its mantissa, which is right for the mantissas that rounding leaves. -/
inductive AtMost : UnpackedFloat → UnpackedFloat → Prop
  | refl (u : UnpackedFloat) : AtMost u u
  | zero {n : Nat} {d : Int} {hn : 0 < n} : AtMost (.zero .positive) (.finite .positive n d hn)
  | infinite (u : UnpackedFloat) : AtMost u (.infinity .positive)
  | shorter {m n : Nat} {e d : Int} {hm : 0 < m} {hn : 0 < n} (h : e < d) :
    AtMost (.finite .positive m e hm) (.finite .positive n d hn)
  | smaller {m n : Nat} {e : Int} {hm : 0 < m} {hn : 0 < n} (h : m ≤ n) :
    AtMost (.finite .positive m e hm) (.finite .positive n e hn)

theorem finite_lt_finite {m n : Nat} {e d : Int} (hm : 0 < m) (hn : 0 < n) :
    UnpackedFloat.lt (.finite .positive m e hm) (.finite .positive n d hn) = true ↔
      e < d ∨ e = d ∧ m < n := by
  show (some ((compare e d).then (compare m n)) == some .lt) = true ↔ _
  simp [Ordering.then_eq_lt, compare_lt_iff_lt]

theorem not_infinity_lt (x : UnpackedFloat) : UnpackedFloat.lt (.infinity .positive) x = false := by
  rcases x with s | _ | s | ⟨s, k, c, hk⟩
  · cases s <;> decide
  · rfl
  · rfl
  · rfl

/-- What exceeds a finite value exceeds those with a smaller exponent, or with the same one and a
mantissa that is not larger. -/
theorem finite_lt_of_le {m n : Nat} {e d : Int} {hm : 0 < m} {hn : 0 < n}
    (hle : e < d ∨ e = d ∧ m ≤ n) {x : UnpackedFloat}
    (hx : UnpackedFloat.lt (.finite .positive n d hn) x = true) :
    UnpackedFloat.lt (.finite .positive m e hm) x = true := by
  rcases x with s | _ | s | ⟨s, k, c, hk⟩
  · cases s <;> exact hx
  · cases hx
  · cases hx
  · cases s
    · cases hx
    · rw [finite_lt_finite] at hx ⊢
      omega

/-- What exceeds a value exceeds all that are at most as large: `AtMost` is stronger than the
comparison that the program makes. -/
theorem AtMost.lt_of_lt {u v x : UnpackedFloat} (h : AtMost u v)
    (hx : UnpackedFloat.lt v x = true) :
    UnpackedFloat.lt u x = true := by
  cases h with
  | refl => exact hx
  | zero =>
    rcases x with s | _ | s | ⟨s, k, c, hk⟩
    · cases s <;> exact hx
    · cases hx
    · cases hx
    · cases s
      · cases hx
      · rfl
  | infinite =>
    rw [not_infinity_lt] at hx
    cases hx
  | shorter h => exact finite_lt_of_le (.inl h) hx
  | smaller h => exact finite_lt_of_le (.inr ⟨rfl, h⟩) hx

/-- `settle` keeps the order, both of mantissas with one exponent and of exponents. -/
theorem settle_mono {m n : Nat} {e d : Int} (h : e = d ∧ m ≤ n ∨ e < d ∧ 2 ^ 52 ≤ n)
    (hm : m ≤ 2 ^ 53) :
    AtMost (settle .positive m e) (settle .positive n d) := by
  rcases Nat.eq_zero_or_pos n with rfl | hn0
  · obtain rfl : m = 0 := by omega
    exact .refl _
  rcases Nat.eq_zero_or_pos m with rfl | hm0
  · rcases Nat.lt_or_ge n (2 ^ 53) with hn | hn
    · rw [settle_of_lt hn0 hn]
      exact .zero
    · rw [settle_of_le hn]
      exact .zero
  -- a mantissa that gives a bit back is the least with the next exponent
  rcases Nat.lt_or_ge m (2 ^ 53) with hm53 | hm53
  · rw [settle_of_lt hm0 hm53]
    rcases Nat.lt_or_ge n (2 ^ 53) with hn | hn
    · rw [settle_of_lt hn0 hn]
      rcases h with ⟨rfl, hle⟩ | ⟨hlt, -⟩
      · exact .smaller hle
      · exact .shorter hlt
    · rw [settle_of_le hn]
      exact .shorter (by omega)
  · rw [settle_of_le hm53]
    rcases Nat.lt_or_ge n (2 ^ 53) with hn | hn
    · rw [settle_of_lt hn0 hn]
      rcases Int.lt_or_eq_of_le (show e + 1 ≤ d by omega) with hlt | rfl
      · exact .shorter hlt
      · exact .smaller (by omega)
    · rw [settle_of_le hn]
      rcases h with ⟨rfl, -⟩ | ⟨hlt, -⟩
      · exact .smaller (Nat.le_refl _)
      · exact .shorter (by omega)

/-- Of two mantissas with one exponent the larger one is not rounded to less. Either `scale` tells
the results apart, or both mantissas are shifted by the same number of bits. -/
theorem rounded_mono {m n : Nat} (hm : 2 ^ 52 ≤ m) (hle : m ≤ n) (e : Int) :
    AtMost (roundWithAccuracy Format.binary64 .positive m e .exact)
      (roundWithAccuracy Format.binary64 .positive n e .exact) := by
  have hn := Nat.le_trans hm hle
  rw [roundWithAccuracy_eq hm, roundWithAccuracy_eq hn]
  refine settle_mono ?_ (mantissaAt_le m e (le_scale hm e))
  have hscale : scale m e ≤ scale n e := by
    have : m.log2 ≤ n.log2 :=
      (Nat.le_log2 (by omega)).mpr (Nat.le_trans (Nat.log2_self_le (by omega)) hle)
    unfold scale
    omega
  -- either the exponents tell the two apart, or both mantissas are shifted by the same number of
  -- bits
  rcases Int.lt_or_eq_of_le hscale with hlt | heq
  · refine .inr ⟨hlt, le_mantissaAt hn ?_⟩
    have : -1074 ≤ scale m e := Int.le_max_right _ _
    omega
  · refine .inl ⟨heq, ?_⟩
    unfold mantissaAt
    rw [heq]
    exact roundedMantissa_mono (code_shiftRight_mono (by simp only [code]; omega) _)

/-! ## Storage -/

/-- What can be stored: at most 53 bits, no exponent below the least one, and no fewer bits above
it. Every result of `roundWithAccuracy` is of this form. -/
def Canonical : UnpackedFloat → Prop
  | .finite _ m e _ => m < 2 ^ 53 ∧ -1074 ≤ e ∧ (2 ^ 52 ≤ m ∨ e = -1074)
  | _ => True

/-- What is read again after `pack`: the same, unless its exponent is too large. -/
def stored : UnpackedFloat → UnpackedFloat
  | .finite s m e h => if 972 ≤ e then .infinity s else .finite s m e h
  | u => u

theorem canonical_settle {m : Nat} {e : Int} (he : -1074 ≤ e) (hbits : 2 ^ 52 ≤ m ∨ e = -1074)
    (s : Sign) :
    Canonical (settle s m e) := by
  rcases Nat.eq_zero_or_pos m with rfl | hm
  · trivial
  rcases Nat.lt_or_ge m (2 ^ 53) with hlt | hge
  · rw [settle_of_lt hm hlt]
    exact ⟨hlt, he, hbits⟩
  · rw [settle_of_le hge]
    exact ⟨by decide, by omega, .inl (Nat.le_refl _)⟩

/-- Whatever is rounded can be stored: it has 53 bits, or the least exponent. -/
theorem canonical_settled {n : Nat} {e : Int} (hle : e ≤ scale n e) (s : Sign) (a : Accuracy) :
    Canonical (roundWithAccuracy Format.binary64 s n e a) := by
  rw [roundWithAccuracy_settles hle]
  refine canonical_settle (Int.le_max_right _ _) ?_ s
  by_cases hscale : scale n e = -1074
  · exact .inr hscale
  · rw [← mantissa_ofMantissaAndAccuracy n a] at hle hscale
    exact .inl (le_keptAt hle hscale)

theorem canonical_rounded {n : Nat} (hn : 2 ^ 52 ≤ n) (s : Sign) (e : Int) :
    Canonical (roundWithAccuracy Format.binary64 s n e .exact) :=
  canonical_settled (le_scale hn e) s .exact

/-- Storing keeps the order `AtMost`: a value becomes infinite only if all larger ones do. -/
theorem AtMost.stored {u v : UnpackedFloat} (h : AtMost u v) : AtMost (stored u) (stored v) := by
  cases h with
  | refl => exact .refl _
  | infinite => exact .infinite _
  | @zero n d =>
    dsimp only [Rounding.stored]
    by_cases hd : 972 ≤ d
    · rw [if_pos hd]
      exact .infinite _
    · rw [if_neg hd]
      exact .zero
  | @shorter m n e d hm hn h =>
    dsimp only [Rounding.stored]
    by_cases hd : 972 ≤ d
    · rw [if_pos hd]
      exact .infinite _
    · rw [if_neg hd, if_neg (show ¬972 ≤ e by omega)]
      exact .shorter h
  | @smaller m n e hm hn h =>
    dsimp only [Rounding.stored]
    by_cases he : 972 ≤ e
    · rw [if_pos he, if_pos he]
      exact .refl _
    · rw [if_neg he, if_neg he]
      exact .smaller h

theorem toNat_append_implicit {m : Nat} (hlow : 2 ^ 52 ≤ m) (hhigh : m < 2 ^ 53) :
    (1#1 ++ BitVec.ofNat 52 m).toNat = m := by
  rw [BitVec.toNat_append, ← Nat.shiftLeft_add_eq_or_of_lt (BitVec.isLt _), BitVec.toNat_ofNat]
  show 1 <<< 52 + m % 2 ^ 52 = m
  omega

theorem ofBitVec_toBitVec (s : Sign) : Sign.ofBitVec s.toBitVec = s := by
  cases s <;> rfl

/-- With 53 bits the first one is not stored, and is put back by `unpack`. -/
theorem unpack_normal (s : Sign) {m b : Nat} (hlow : 2 ^ 52 ≤ m) (hhigh : m < 2 ^ 53) (hb : 0 < b)
    (hmost : b + 1 < 2 ^ 11) :
    UnpackedFloat.unpack Format.binary64 (packComponents Format.binary64 s (BitVec.ofNat 11 b)
      (BitVec.ofNat 52 m)) =
      .finite s m (b - 1075) (by omega) := by
  have hexponent : (BitVec.ofNat 11 b).toNat = b := by
    rw [BitVec.toNat_ofNat]
    omega
  have hfinite : BitVec.ofNat 11 b ≠ -1#11 := fun h => by
    have := congrArg BitVec.toNat h
    rw [hexponent] at this
    exact absurd this (by show b ≠ 2047; omega)
  have hlong : BitVec.ofNat 11 b ≠ 0#11 := fun h => by
    have := congrArg BitVec.toNat h
    rw [hexponent] at this
    exact absurd this (by show b ≠ 0; omega)
  unfold UnpackedFloat.unpack
  dsimp only
  rw [unpackExponent_packComponents, unpackSign_packComponents, ofBitVec_toBitVec,
    if_neg hfinite, if_neg hlong]
  refine finite_congr ?_ ?_
  · rw [unpackMantissa_packComponents]
    exact toNat_append_implicit hlow hhigh
  · rw [hexponent]
    rfl

/-- With fewer bits than 53 a value is stored as it is, under the exponent field zero. -/
theorem unpack_subnormal (s : Sign) {m : Nat} (hm : 0 < m) (hhigh : m < 2 ^ 52) :
    UnpackedFloat.unpack Format.binary64
      (packComponents Format.binary64 s 0#11 (BitVec.ofNat 52 m)) =
      .finite s m (-1074) hm := by
  have hmantissa : (BitVec.ofNat 52 m).toNat = m := by
    rw [BitVec.toNat_ofNat]
    omega
  have hread : unpackMantissa (packComponents Format.binary64 s 0#11 (BitVec.ofNat 52 m)) =
      BitVec.ofNat 52 m := unpackMantissa_packComponents
  have hsome : BitVec.ofNat 52 m ≠ 0#52 := fun h => by
    have := congrArg BitVec.toNat h
    rw [hmantissa] at this
    exact absurd this hm.ne'
  unfold UnpackedFloat.unpack
  dsimp only
  rw [unpackExponent_packComponents, unpackSign_packComponents, ofBitVec_toBitVec,
    if_neg (by decide), if_pos rfl, dif_neg (by rwa [hread])]
  exact finite_congr (by rwa [hread]) rfl

/-- A `Canonical` value that is packed and unpacked is itself, or infinite. -/
theorem unpack_pack {u : UnpackedFloat} (hu : Canonical u) :
    Float.Model.unpack (Float.Model.pack u) = stored u := by
  show UnpackedFloat.unpack Format.binary64 (UnpackedFloat.pack Format.binary64 u) = stored u
  rcases u with s | _ | s | ⟨s, m, e, hm⟩
  · cases s <;> rfl
  · rfl
  · cases s <;> rfl
  obtain ⟨hbits, hleast, hshort⟩ := hu
  have hbias : (e + (Format.binary64.exponentBias : Int) +
      (Format.binary64.mantissaBitsWithoutImplicit : Int)).toNat =
        (e + 1075).toNat := by
    show (e + 1023 + 52).toNat = _
    omega
  dsimp only [UnpackedFloat.pack, stored]
  rw [hbias]
  by_cases hlarge : 972 ≤ e
  · rw [if_pos hlarge, if_pos (show 2 ^ 11 ≤ (e + 1075).toNat + 1 by omega)]
    cases s <;> rfl
  -- neither the exponent nor the mantissa is cut off from here on
  rw [if_neg hlarge, if_neg (show ¬2 ^ 11 ≤ (e + 1075).toNat + 1 by omega)]
  by_cases hnormal : 2 ^ 52 ≤ m
  · have hlog : m.log2 + 1 = Format.binary64.mantissaBits := by
      have := log2_of_le hnormal
      have := (Nat.log2_lt hm.ne').mpr hbits
      show m.log2 + 1 = 53
      omega
    have hback : ((e + 1075).toNat : Int) - 1075 = e := by omega
    rw [if_pos hlog]
    exact (unpack_normal s hnormal hbits (by omega) (by omega)).trans (finite_congr rfl hback)
  · have hlog : ¬m.log2 + 1 = Format.binary64.mantissaBits := by
      have := (Nat.log2_lt hm.ne').mpr (Nat.lt_of_not_le hnormal)
      show ¬m.log2 + 1 = 53
      omega
    obtain rfl : e = -1074 := hshort.resolve_left hnormal
    rw [if_neg hlog]
    exact unpack_subnormal s hm (Nat.lt_of_not_le hnormal)

/-! ## Products -/

/-- What exceeds the product with the larger of two factors exceeds the product with the smaller
one. The factors have the same exponent, so the products have as well before they are rounded, and
`rounded_mono` applies. -/
theorem mul_lt_of_mul_lt {a b x y : Float} {m n : Nat} {e : Int} {hm : 0 < m} {hn : 0 < n}
    (ha : a.toModel.unpack = .finite .positive m e hm)
    (hb : b.toModel.unpack = .finite .positive n e hn) (hbits : 2 ^ 52 ≤ m) (hle : m ≤ n)
    (hx : Unsigned x) (h : b * x < y) : a * x < y := by
  have hproduct : AtMost (a * x).toModel.unpack (b * x).toModel.unpack := by
    show AtMost (Float.Model.pack (UnpackedFloat.mul Format.binary64 a.toModel.unpack
      x.toModel.unpack)).unpack
      (Float.Model.pack (UnpackedFloat.mul Format.binary64 b.toModel.unpack
        x.toModel.unpack)).unpack
    rw [ha, hb]
    unfold Unsigned at hx
    generalize x.toModel.unpack = u at hx ⊢
    -- what is not finite makes both products the same
    rcases u with s | _ | s | ⟨s, k, d, hk⟩
    · exact .refl _
    · exact .refl _
    · exact .refl _
    · cases hx
      have hmk : 2 ^ 52 ≤ m * k := Nat.le_trans hbits (Nat.le_mul_of_pos_right m hk)
      have hmul : m * k ≤ n * k := Nat.mul_le_mul_right k hle
      have hstored := (rounded_mono hmk hmul (e + d)).stored
      rwa [← unpack_pack (canonical_rounded hmk _ _),
        ← unpack_pack (canonical_rounded (Nat.le_trans hmk hmul) _ _)] at hstored
  have hlt : ∀ z : Float, z < y ↔ UnpackedFloat.lt z.toModel.unpack y.toModel.unpack = true :=
    fun z =>
    decide_eq_true_iff
  rw [hlt] at h ⊢
  exact hproduct.lt_of_lt h

theorem unpack_half : (0.5 : Float).toModel.unpack = .finite .positive (2 ^ 52) (-53) (by decide) :=
  rfl

theorem unpack_most :
    (0.99 : Float).toModel.unpack = .finite .positive 8917127262193582 (-53) (by decide) := rfl

/-- What exceeds 99 in 100 parts of a count exceeds half of it. Both shares are computed with
rounding, and the two factors happen to have one exponent. -/
theorem half_lt_of_most_lt {x y : Float} (hx : Unsigned x) (h : 0.99 * x < y) : 0.5 * x < y :=
  mul_lt_of_mul_lt unpack_half unpack_most (Nat.le_refl _) (by decide) hx h

end Headroom.Rounding
