import Headroom.Proofs.Rounding

/-!
# Powers of two that rounding does not cross

Rounding goes to the nearest double, and powers of two are doubles. What is at most a power of two
is so after rounding too, and what reaches one still reaches it, so counts and their quotients are
bounded without a look at their last bits.

* **`UpTo.div`, `From.div`**: a quotient is bounded by the bounds of its parts.
* **`upTo_natCast`, `from_natCast`**: so is a count.
* **`not_lt_of_from`, `UpTo.of_lt`**: what a comparison with a bounded double tells.
-/

namespace Headroom.Rounding

open Float.Model Float.Model.UnpackedFloat

/-- A value without a sign that is at most `2 ^ k`. A finite one shows it by a bound `2 ^ j` on its
mantissa that, together with the exponent, stays within `k`; zero is within everything. -/
inductive Within (k : Int) : UnpackedFloat → Prop
  | zero : Within k (.zero .positive)
  | finite {m j : Nat} {e : Int} {hm : 0 < m} (hbits : m ≤ 2 ^ j) (hexponent : e + j ≤ k) :
    Within k (.finite .positive m e hm)

/-- A value without a sign that is at least `2 ^ k`: the counterpart of `Within`, with infinity in
the place of zero. -/
inductive Reaching (k : Int) : UnpackedFloat → Prop
  | infinite : Reaching k (.infinity .positive)
  | finite {m j : Nat} {e : Int} {hm : 0 < m} (hbits : 2 ^ j ≤ m) (hexponent : k ≤ e + j) :
    Reaching k (.finite .positive m e hm)

/-! ## Rounding -/

theorem shiftRight_pow {j d : Nat} (hd : d ≤ j) :
    ExtendedMantissa.mk (2 ^ j) false false >>> d = ⟨2 ^ (j - d), false, false⟩ := by
  show d.repeat ExtendedMantissa.shiftRightOne _ = _
  induction d with
  | zero => rfl
  | succ d ih =>
    show (d.repeat ExtendedMantissa.shiftRightOne _).shiftRightOne = _
    rw [ih (by omega), show j - d = (j - (d + 1)) + 1 by omega]
    simp [ExtendedMantissa.shiftRightOne, Nat.pow_succ]

/-- Shifting and rounding a mantissa of at most `2 ^ j` leaves at most `2 ^ (j - d)`. The power of
two itself loses no bits (`shiftRight_pow`), and `roundedMantissa_mono` carries that to all that are
below it. -/
theorem shifted_le {m : ExtendedMantissa} {j d : Nat} (hm : code m ≤ 4 * 2 ^ j) (hd : d ≤ j) :
    (m >>> d).roundedMantissa ≤ 2 ^ (j - d) := by
  have hmono := roundedMantissa_mono (code_shiftRight_mono (n := ⟨2 ^ j, false, false⟩) hm d)
  rwa [shiftRight_pow hd] at hmono

/-- The same from below: what is at least a power of two is not rounded to less than that power,
shifted. -/
theorem le_shifted {m : ExtendedMantissa} {j d : Nat} (hm : 4 * 2 ^ j ≤ code m) (hd : d ≤ j) :
    2 ^ (j - d) ≤ (m >>> d).roundedMantissa := by
  have hmono := roundedMantissa_mono (code_shiftRight_mono (m := ⟨2 ^ j, false, false⟩) hm d)
  rwa [shiftRight_pow hd] at hmono

theorem within_settle {m i : Nat} {e k : Int} (hm : m ≤ 2 ^ i) (hk : e + i ≤ k) :
    Within k (settle .positive m e) := by
  rcases Nat.eq_zero_or_pos m with rfl | hpos
  · exact .zero
  rcases Nat.lt_or_ge m (2 ^ 53) with hlt | hlong
  · rw [settle_of_lt hpos hlt]
    exact .finite hm hk
  · -- a bit is given back only if the power of two has it too
    have hi : 53 ≤ i := (Nat.pow_le_pow_iff_right (by decide)).mp (Nat.le_trans hlong hm)
    rw [settle_of_le hlong]
    exact .finite (j := i - 1) (Nat.pow_le_pow_right (by decide) (by omega)) (by omega)

theorem reaching_settle {m i : Nat} {e k : Int} (hm : 2 ^ i ≤ m) (hk : k ≤ e + i)
    (hmost : m ≤ 2 ^ 53) :
    Reaching k (settle .positive m e) := by
  have hpos : 0 < m := Nat.lt_of_lt_of_le (Nat.pow_pos (by decide)) hm
  rcases Nat.lt_or_ge m (2 ^ 53) with hlt | hlong
  · rw [settle_of_lt hpos hlt]
    exact .finite hm hk
  · have hi : i ≤ 53 := (Nat.pow_le_pow_iff_right (by decide)).mp (Nat.le_trans hm hmost)
    rw [settle_of_le hlong]
    exact .finite (j := 52) (Nat.le_refl _) (by omega)

section Rounded

variable {n j : Nat} {e k : Int} {a : Accuracy}

/-- `roundWithAccuracy` keeps an upper bound by a power of two. Where all bits would be shifted out
the result is at most one unit of the least exponent, which is why `k` must not be below `-1074`. -/
theorem within_rounded (hle : e ≤ scale n e)
    (hcode : code (.ofMantissaAndAccuracy n a) ≤ 4 * 2 ^ j) (hk : e + j ≤ k) (hleast : -1074 ≤ k) :
    Within k (roundWithAccuracy Format.binary64 .positive n e a) := by
  rw [roundWithAccuracy_settles hle]
  have hmantissa := mantissa_ofMantissaAndAccuracy n a
  by_cases hshift : (scale n e - e).toNat ≤ j
  · have hkept : keptAt (.ofMantissaAndAccuracy n a) e ≤ 2 ^ (j - (scale n e - e).toNat) := by
      rw [keptAt, hmantissa]
      exact shifted_le hcode hshift
    exact within_settle hkept (by omega)
  · -- all bits are shifted out, so at most one unit is left, and the unit is the least one
    have hn : n < 2 ^ (scale n e - e).toNat := by
      have hj : n ≤ 2 ^ j := by
        unfold code at hcode
        omega
      exact Nat.lt_of_le_of_lt hj (Nat.pow_lt_pow_right (by decide) (by omega))
    have hlow : scale n e = -1074 := by
      have hlog : n.log2 ≤ (scale n e - e).toNat := by
        rcases Nat.eq_zero_or_pos n with rfl | hpos
        · simp
        · exact Nat.le_of_lt ((Nat.log2_lt hpos.ne').mpr hn)
      unfold scale at *
      omega
    have hkept : keptAt (.ofMantissaAndAccuracy n a) e ≤ 2 ^ 0 := by
      have hround :=
        (roundedMantissa_bounds (ExtendedMantissa.ofMantissaAndAccuracy n a >>>
        (scale n e - e).toNat)).2
      rw [mantissa_shiftRight, hmantissa, Nat.div_eq_of_lt hn] at hround
      rwa [keptAt, hmantissa]
    exact within_settle hkept (by omega)

/-- `roundWithAccuracy` keeps a lower bound by a power of two, if the bound can be represented at
all. -/
theorem reaching_rounded (hle : e ≤ scale n e)
    (hcode : 4 * 2 ^ j ≤ code (.ofMantissaAndAccuracy n a)) (hk : k ≤ e + j) (hleast : -1074 ≤ k) :
    Reaching k (roundWithAccuracy Format.binary64 .positive n e a) := by
  rw [roundWithAccuracy_settles hle]
  have hmantissa := mantissa_ofMantissaAndAccuracy n a
  have hmost : keptAt (.ofMantissaAndAccuracy n a) e ≤ 2 ^ 53 := keptAt_le (by rwa [hmantissa])
  by_cases hshift : (scale n e - e).toNat ≤ j
  · have hkept : 2 ^ (j - (scale n e - e).toNat) ≤ keptAt (.ofMantissaAndAccuracy n a) e := by
      rw [keptAt, hmantissa]
      exact le_shifted hcode hshift
    exact reaching_settle hkept (by omega) hmost
  · -- the unit is above the least one, so it is one of a mantissa with all its bits
    have hkept : 2 ^ 52 ≤ keptAt (.ofMantissaAndAccuracy n a) e :=
      le_keptAt (by rwa [hmantissa]) (by rw [hmantissa]; omega)
    exact reaching_settle hkept (by omega) hmost

end Rounded

/-! ## Storage -/

section Exponent

variable {b : BitVec Format.binary64.numBits}

theorem storedExponent_of_zero (h : unpackExponent b = 0#11) :
    storedExponent b = -1075 := by
  rw [storedExponent, h]
  rfl

theorem le_storedExponent (h : unpackExponent b ≠ 0#11) :
    -1074 ≤ storedExponent b := by
  have hpos : 0 < (unpackExponent b).toNat :=
    Nat.pos_of_ne_zero fun hzero => h (BitVec.eq_of_toNat_eq hzero)
  show (-1074 : Int) ≤ (unpackExponent b).toNat - (1023 + 52)
  omega

theorem storedExponent_lt (h : unpackExponent b ≠ -1#11) :
    storedExponent b < 972 := by
  have hlt : (unpackExponent b).toNat < 2047 := by
    refine Nat.lt_of_le_of_ne (Nat.le_of_lt_succ (BitVec.isLt _)) ?_
    exact fun hlast => h (BitVec.eq_of_toNat_eq hlast)
  show ((unpackExponent b).toNat : Int) - (1023 + 52) < 972
  omega

end Exponent

/-- Every double is `Canonical`: the fields it is stored in have no room for a longer mantissa or a
smaller exponent. -/
theorem canonical_unpack (x : Float) : Canonical x.toModel.unpack := by
  refine unpack_cases (f := Format.binary64) _ trivial trivial trivial ?subnormal ?normal
  case subnormal =>
    intro hzero _
    rw [storedExponent_of_zero hzero]
    exact ⟨Nat.lt_trans (BitVec.isLt _) (by decide), by decide, .inr rfl⟩
  case normal =>
    intro _ hsome _
    refine ⟨BitVec.isLt _, le_storedExponent hsome, .inl ?_⟩
    rw [BitVec.toNat_append, ← Nat.shiftLeft_add_eq_or_of_lt (BitVec.isLt _)]
    exact Nat.le_add_right _ _

/-- A double survives being stored, since its exponent is already small enough; so `stored` changes
only results of arithmetic. -/
theorem stored_unpack (x : Float) : stored x.toModel.unpack = x.toModel.unpack := by
  refine unpack_cases (f := Format.binary64) (P := fun u => stored u = u) _ rfl rfl rfl ?subnormal
    ?normal
  case subnormal =>
    intro hzero _
    rw [storedExponent_of_zero hzero]
    rfl
  case normal =>
    intro hfinite _ _
    exact if_neg (Int.not_le_of_gt (storedExponent_lt hfinite))

/-- Storing keeps an upper bound `Within`, as long as the bound itself is finite. -/
theorem Within.stored {k : Int} {u : UnpackedFloat} (h : Within k u) (hu : Canonical u)
    (hk : k ≤ 1023) :
    Within k (stored u) := by
  cases h with
  | zero => exact .zero
  | @finite m j e hm hbits hexponent =>
    have he : ¬972 ≤ e := by
      intro he
      have hm52 : 2 ^ 52 ≤ m := hu.2.2.resolve_right (by omega)
      have hj : 52 ≤ j := (Nat.pow_le_pow_iff_right (by decide)).mp (Nat.le_trans hm52 hbits)
      omega
    dsimp only [Rounding.stored]
    rw [if_neg he]
    exact .finite hbits hexponent

/-- Storing keeps a lower bound `Reaching`: what becomes infinite exceeds every power of two. -/
theorem Reaching.stored {k : Int} {u : UnpackedFloat} (h : Reaching k u) :
    Reaching k (stored u) := by
  cases h with
  | infinite => exact .infinite
  | @finite m j e hm hbits hexponent =>
    dsimp only [Rounding.stored]
    by_cases he : 972 ≤ e
    · rw [if_pos he]
      exact .infinite
    · rw [if_neg he]
      exact .finite hbits hexponent

/-- A double without a sign, at most `2 ^ k`: `Within` of its parts. Bounds of this form are all
that is needed of a division of two counts. -/
def UpTo (k : Int) (x : Float) : Prop := Within k x.toModel.unpack

/-- A double without a sign, at least `2 ^ k`: `Reaching` of its parts. -/
def From (k : Int) (x : Float) : Prop := Reaching k x.toModel.unpack

/-- No finite double reaches `2 ^ 1024`. -/
theorem From.eq_infinity {x : Float} (h : From 1024 x) :
    x.toModel.unpack = .infinity .positive := by
  have hx := canonical_unpack x
  have hstored := stored_unpack x
  unfold From at h
  generalize x.toModel.unpack = u at *
  cases h with
  | infinite => rfl
  | @finite m j e hm hbits hexponent =>
    have hj : j < 53 := (Nat.pow_lt_pow_iff_right (by decide)).mp (Nat.lt_of_le_of_lt hbits hx.1)
    dsimp only [stored] at hstored
    rw [if_pos (by omega)] at hstored
    cases hstored

/-! ## Quotients -/

/-- The quotient with the accuracy of its remainder compares to a whole number `c` as the fraction
does. So rounding a quotient can be bounded by multiplying out, without looking at its bits. -/
theorem code_fraction (num : Nat) {den : Nat} (hden : 0 < den) (c : Nat) :
    (code (.ofMantissaAndAccuracy (num / den) (accuracyOfFraction (num % den) den)) ≤ 4 * c ↔
      num ≤ c * den) ∧
      (4 * c ≤ code (.ofMantissaAndAccuracy (num / den) (accuracyOfFraction (num % den) den)) ↔
      c * den ≤ num) := by
  have hle : c * den ≤ num ↔ c ≤ num / den := (Nat.le_div_iff_mul_le hden).symm
  have hlt : num < c * den ↔ num / den < c := (Nat.div_lt_iff_lt_mul hden).symm
  have heq : num = c * den ↔ num / den = c ∧ num % den = 0 := by
    constructor
    · rintro rfl
      exact ⟨Nat.mul_div_cancel c hden, Nat.mul_mod_left c den⟩
    · rintro ⟨rfl, hmod⟩
      exact (Nat.div_mul_cancel (Nat.dvd_of_mod_eq_zero hmod)).symm
  -- the two bits behind the quotient are zero exactly if nothing is left
  unfold accuracyOfFraction
  split
  · simp only [code, ExtendedMantissa.ofMantissaAndAccuracy, Bool.toNat_false]
    omega
  · cases compare (2 * (num % den)) den <;>
      simp only [code, ExtendedMantissa.ofMantissaAndAccuracy, Bool.toNat_false,
        Bool.toNat_true] <;> omega

section Quotient

variable {m n : Nat} {e d : Int} (hm : 0 < m) (hn : 0 < n)

/-- The dividend is shifted by `t` bits until the quotient has enough bits, or until its unit is the
least one; the quotient is then rounded once, with the accuracy that the remainder gives. -/
theorem div_finite : ∃ t : Nat,
    UnpackedFloat.div Format.binary64 (.finite .positive m e hm) (.finite .positive n d hn) =
      roundWithAccuracy Format.binary64 .positive (m * 2 ^ t / n) (e - d - t)
        (accuracyOfFraction (m * 2 ^ t % n) n) ∧
    e - d - t ≤ scale (m * 2 ^ t / n) (e - d - t) ∧
    (e - d - t ≤ -1074 ∨ n.log2 + 53 ≤ m.log2 + t) := by
  have htarget : Format.binary64.targetExponent (totalExponent m e - totalExponent n d) =
      max ((m.log2 : Int) + e - (n.log2 + d) - 53) (-1074) := by
    simp only [Format.targetExponent, totalExponent, mantissaBits_binary64, Format.minExponent]
    omega
  refine ⟨(e - d - min (e - d) (max ((m.log2 : Int) + e - (n.log2 + d) - 53) (-1074))).toNat, ?_,
    ?_⟩
  · -- this is how `div` computes the shift, up to writing a product for it
    show roundWithAccuracy _ _ _ _ _ = _
    simp only [htarget, Nat.shiftLeft_eq]
    congr 1
    omega
  · generalize ht :
      (e - d - min (e - d) (max ((m.log2 : Int) + e - (n.log2 + d) - 53) (-1074))).toNat = t
    have hcases : e - d - t ≤ -1074 ∨ n.log2 + 53 ≤ m.log2 + t := by omega
    refine ⟨?_, hcases⟩
    rcases hcases with hleast | hbits
    · exact Int.le_trans hleast (Int.le_max_right _ _)
    · -- the dividend has 53 bits more than the divisor, so the quotient has at least 53
      apply le_scale
      rw [Nat.le_div_iff_mul_le hn]
      calc 2 ^ 52 * n
        _ ≤ 2 ^ 52 * 2 ^ (n.log2 + 1) := Nat.mul_le_mul_left _ (Nat.le_of_lt Nat.lt_log2_self)
        _ = 2 ^ (n.log2 + 53) := by rw [← Nat.pow_add]; congr 1; omega
        _ ≤ 2 ^ (m.log2 + t) := Nat.pow_le_pow_right (by decide) hbits
        _ = 2 ^ m.log2 * 2 ^ t := Nat.pow_add ..
        _ ≤ m * 2 ^ t := Nat.mul_le_mul_right _ (Nat.log2_self_le hm.ne')

end Quotient

theorem canonical_div (u v : UnpackedFloat) (hu : sign u = .positive) (hv : sign v = .positive) :
    Canonical (UnpackedFloat.div Format.binary64 u v) := by
  cases u <;> cases v <;> cases hu <;> cases hv
  case finite.finite m e hm n d hn =>
    obtain ⟨t, hdiv, hle, -⟩ := div_finite (e := e) (d := d) hm hn
    rw [hdiv]
    exact canonical_settled hle _ _
  all_goals trivial

theorem Within.sign {k : Int} {u : UnpackedFloat} (h : Within k u) : sign u = .positive := by
  cases h <;> rfl

theorem Reaching.sign {k : Int} {u : UnpackedFloat} (h : Reaching k u) : sign u = .positive := by
  cases h <;> rfl

section Bounds

variable {a b : Int} {u v : UnpackedFloat}

/-- A value up to `2 ^ a` divided by one from `2 ^ b` is up to `2 ^ (a - b)`. -/
theorem Within.div (hu : Within a u) (hv : Reaching b v) (hleast : -1074 ≤ a - b) :
    Within (a - b) (UnpackedFloat.div Format.binary64 u v) := by
  cases hu with
  | zero => cases hv <;> exact .zero
  | @finite m i e hm hmi hea =>
    cases hv with
    | infinite => exact .zero
    | @finite n j d hn hjn hbd =>
      obtain ⟨t, hdiv, hle, hcases⟩ := div_finite (e := e) (d := d) hm hn
      rw [hdiv]
      have hmt : m * 2 ^ t ≤ 2 ^ (i + t) := by
        rw [Nat.pow_add]
        exact Nat.mul_le_mul_right _ hmi
      by_cases hroom : j ≤ i + t
      · refine within_rounded (j := i + t - j) hle ?_ (by omega) hleast
        rw [(code_fraction _ hn _).1]
        calc m * 2 ^ t
          _ ≤ 2 ^ (i + t) := hmt
          _ = 2 ^ (i + t - j) * 2 ^ j := by rw [← Nat.pow_add, Nat.sub_add_cancel hroom]
          _ ≤ 2 ^ (i + t - j) * n := Nat.mul_le_mul_left _ hjn
      · -- the quotient is below one unit, so the unit is the least one
        have hi : m.log2 ≤ i := (Nat.pow_le_pow_iff_right (by decide)).mp
          (Nat.le_trans (Nat.log2_self_le hm.ne') hmi)
        have hj : j ≤ n.log2 := (Nat.le_log2 hn.ne').mpr hjn
        refine within_rounded (j := 0) hle ?_ (by omega) hleast
        rw [(code_fraction _ hn _).1, Nat.pow_zero, Nat.one_mul]
        calc m * 2 ^ t
          _ ≤ 2 ^ (i + t) := hmt
          _ ≤ 2 ^ j := Nat.pow_le_pow_right (by decide) (by omega)
          _ ≤ n := hjn

/-- A value from `2 ^ a` divided by one up to `2 ^ b` is from `2 ^ (a - b)`, division by zero
included. -/
theorem Reaching.div (hu : Reaching a u) (hv : Within b v) (hleast : -1074 ≤ a - b) :
    Reaching (a - b) (UnpackedFloat.div Format.binary64 u v) := by
  cases hu with
  | infinite => cases hv <;> exact .infinite
  | @finite m i e hm him hae =>
    cases hv with
    | zero => exact .infinite
    | @finite n j d hn hnj hdb =>
      obtain ⟨t, hdiv, hle, hcases⟩ := div_finite (e := e) (d := d) hm hn
      rw [hdiv]
      by_cases hroom : j ≤ i + t
      · refine reaching_rounded (j := i + t - j) hle ?_ (by omega) hleast
        rw [(code_fraction _ hn _).2]
        calc 2 ^ (i + t - j) * n
          _ ≤ 2 ^ (i + t - j) * 2 ^ j := Nat.mul_le_mul_left _ hnj
          _ = 2 ^ i * 2 ^ t := by rw [← Nat.pow_add, Nat.sub_add_cancel hroom, Nat.pow_add]
          _ ≤ m * 2 ^ t := Nat.mul_le_mul_right _ him
      · -- the bound is below one unit, which is not the least one
        have hbits : n.log2 + 53 ≤ m.log2 + t := hcases.resolve_left (by omega)
        refine reaching_rounded (j := 0) hle ?_ (by omega) hleast
        rw [(code_fraction _ hn _).2, Nat.pow_zero, Nat.one_mul]
        calc n
          _ ≤ 2 ^ (n.log2 + 1) := Nat.le_of_lt Nat.lt_log2_self
          _ ≤ 2 ^ (m.log2 + t) := Nat.pow_le_pow_right (by decide) (by omega)
          _ = 2 ^ m.log2 * 2 ^ t := Nat.pow_add ..
          _ ≤ m * 2 ^ t := Nat.mul_le_mul_right _ (Nat.log2_self_le hm.ne')

end Bounds

section Floats

variable {a b k : Int} {x y : Float}

/-- The bound of a quotient of doubles from above; `hmost` keeps it finite after it is stored. -/
theorem UpTo.div (hx : UpTo a x) (hy : From b y) (hleast : -1074 ≤ a - b) (hmost : a - b ≤ 1023) :
    UpTo (a - b) (x / y) := by
  show Within _ (Float.Model.pack
    (UnpackedFloat.div Format.binary64 x.toModel.unpack y.toModel.unpack)).unpack
  have hcanonical := canonical_div _ _ hx.sign hy.sign
  rw [unpack_pack hcanonical]
  exact (Within.div hx hy hleast).stored hcanonical hmost

/-- The bound of a quotient of doubles from below. It needs no upper end, since infinity is above
every power. -/
theorem From.div (hx : From a x) (hy : UpTo b y) (hleast : -1074 ≤ a - b) :
    From (a - b) (x / y) := by
  show Reaching _ (Float.Model.pack
    (UnpackedFloat.div Format.binary64 x.toModel.unpack y.toModel.unpack)).unpack
  rw [unpack_pack (canonical_div _ _ hx.sign hy.sign)]
  exact (Reaching.div hx hy hleast).stored

/-! ## Comparisons -/

theorem lt_iff_unpacked : x < y ↔ UnpackedFloat.lt x.toModel.unpack y.toModel.unpack = true :=
  decide_eq_true_iff

/-- What is at least `2 ^ k` is not below what is at most `2 ^ k`. This is how the bounds are used
in the end, since the program only ever compares doubles. -/
theorem not_lt_of_from (hx : From k x) (hy : UpTo k y) : ¬x < y := by
  intro hlt
  rw [lt_iff_unpacked] at hlt
  have hcx := canonical_unpack x
  have hcy := canonical_unpack y
  unfold From at hx
  unfold UpTo at hy
  generalize x.toModel.unpack = u at *
  generalize y.toModel.unpack = v at *
  cases hx with
  | infinite => simp [not_infinity_lt] at hlt
  | @finite m i e hm him hke =>
    cases hy with
    | zero => cases hlt
    | @finite n j d hn hnj hdk =>
      rw [finite_lt_finite] at hlt
      obtain ⟨hm53, he, -⟩ := hcx
      obtain ⟨-, hd, hn52⟩ := hcy
      -- above the least exponent a mantissa has all its bits, so a larger exponent means a larger
      -- power of two
      rcases hlt with hlt | ⟨rfl, hlt⟩
      · have hi : i < 53 := (Nat.pow_lt_pow_iff_right (by decide)).mp (Nat.lt_of_le_of_lt him hm53)
        have hj : 52 ≤ j :=
          (Nat.pow_le_pow_iff_right (by decide)).mp
            (Nat.le_trans (hn52.resolve_right (by omega)) hnj)
        omega
      · have hij : i < j :=
          (Nat.pow_lt_pow_iff_right (by decide)).mp
            (Nat.lt_of_le_of_lt him (Nat.lt_of_lt_of_le hlt hnj))
        omega

/-- What is below a bounded double has the same bound `UpTo`, if it has no sign. -/
theorem UpTo.of_lt (hx : Unsigned x) (hlt : x < y) (hy : UpTo k y) : UpTo k x := by
  rw [lt_iff_unpacked] at hlt
  have hcx := canonical_unpack x
  have hcy := canonical_unpack y
  unfold Unsigned at hx
  unfold UpTo at hy ⊢
  generalize x.toModel.unpack = u at *
  generalize y.toModel.unpack = v at *
  rcases u with s | _ | s | ⟨s, m, e, hm⟩
  · cases hx
    rw [not_infinity_lt] at hlt
    cases hlt
  · cases hlt
  · cases hx
    exact .zero
  · cases hx
    cases hy with
    | zero => cases hlt
    | @finite n j d hn hnj hdk =>
      rw [finite_lt_finite] at hlt
      -- the exponent of a double says more than its mantissa, since both are `Canonical`
      obtain ⟨hm53, he, -⟩ := hcx
      obtain ⟨-, -, hn52⟩ := hcy
      rcases hlt with hlt | ⟨rfl, hlt⟩
      · have hj : 52 ≤ j :=
          (Nat.pow_le_pow_iff_right (by decide)).mp
            (Nat.le_trans (hn52.resolve_right (by omega)) hnj)
        exact .finite (Nat.le_of_lt hm53) (by omega)
      · exact .finite (Nat.le_of_lt (Nat.lt_of_lt_of_le hlt hnj)) hdk

end Floats

/-! ## Counts

A count below 2⁵³ is rounded, which changes nothing, and multiplied by one; a larger one is rounded
at once. -/

section Counts

variable {n j : Nat}

theorem code_exact (n : Nat) : code (.ofMantissaAndAccuracy n .exact) = 4 * n := by
  simp [code, ExtendedMantissa.ofMantissaAndAccuracy]

/-- `round` first shifts its number to the left, so that there are enough bits to shift to the right
again. -/
theorem round_eq (hn : 0 < n) (s : Sign) (e : Int) : ∃ t : Nat,
    UnpackedFloat.round Format.binary64 s n e = roundWithAccuracy Format.binary64 s (n * 2 ^ t)
      (e - t) .exact ∧ e - t ≤ scale (n * 2 ^ t) (e - t) := by
  -- a shift to the left changes nothing about the scale
  refine ⟨(e - scale n e).toNat, ?_, ?_⟩
  · unfold UnpackedFloat.round decreaseExponent
    dsimp only
    rw [targetExponent_eq, Nat.shiftLeft_eq]
  · have hlog : n.log2 + (e - scale n e).toNat ≤ (n * 2 ^ (e - scale n e).toNat).log2 := by
      rw [Nat.le_log2 (by positivity), Nat.pow_add]
      exact Nat.mul_le_mul_right _ (Nat.log2_self_le hn.ne')
    unfold scale at *
    omega

theorem normalize_natCast (n : Nat) : UnpackedFloat.normalize Format.binary64 n 0 .positive =
    if n = 0 then .zero .positive else UnpackedFloat.round Format.binary64 .positive n 0 := by
  unfold UnpackedFloat.normalize
  split
  · next hlt => exact absurd (compare_lt_iff_lt.mp hlt) (by omega)
  · next heq => rw [if_pos (by exact_mod_cast compare_eq_iff_eq.mp heq)]
  · next hgt =>
    have hpos := compare_gt_iff_gt.mp hgt
    rw [if_neg (by omega), Int.toNat_natCast]

theorem canonical_normalize (n : Nat) :
    Canonical (UnpackedFloat.normalize Format.binary64 n 0 .positive) := by
  rw [normalize_natCast]
  split
  · trivial
  · next hn =>
    obtain ⟨t, hround, hle⟩ := round_eq (Nat.pos_of_ne_zero hn) .positive 0
    rw [hround]
    exact canonical_settled hle _ _

theorem within_normalize (hn : n ≤ 2 ^ j) :
    Within j (UnpackedFloat.normalize Format.binary64 n 0 .positive) := by
  rw [normalize_natCast]
  split
  · exact .zero
  · next hpos =>
    obtain ⟨t, hround, hle⟩ := round_eq (Nat.pos_of_ne_zero hpos) .positive 0
    rw [hround]
    refine within_rounded (j := j + t) hle ?_ (by omega) (by omega)
    rw [code_exact, Nat.pow_add]
    exact Nat.mul_le_mul_left _ (Nat.mul_le_mul_right _ hn)

theorem reaching_normalize (hn : 2 ^ j ≤ n) :
    Reaching j (UnpackedFloat.normalize Format.binary64 n 0 .positive) := by
  have hpos : 0 < n := Nat.lt_of_lt_of_le (by positivity) hn
  obtain ⟨t, hround, hle⟩ := round_eq hpos .positive 0
  rw [normalize_natCast, if_neg hpos.ne', hround]
  refine reaching_rounded (j := j + t) hle ?_ (by omega) (by omega)
  rw [code_exact, Nat.pow_add]
  exact Nat.mul_le_mul_left _ (Nat.mul_le_mul_right _ hn)

/-- One, with as many bits as a mantissa has: the factor `10 ^ 0` of a decimal number without
places. -/
def one : UnpackedFloat := .finite .positive 4503599627370496 (-52) (by decide)

theorem canonical_mul_one (u : UnpackedFloat) :
    Canonical (UnpackedFloat.mul Format.binary64 u one) := by
  rcases u with s | _ | s | ⟨s, m, e, hm⟩
  · trivial
  · trivial
  · trivial
  · exact canonical_rounded (Nat.le_mul_of_pos_left _ hm) _ _

theorem Within.mul_one {k : Int} {u : UnpackedFloat} (h : Within k u) (hleast : -1074 ≤ k) :
    Within k (UnpackedFloat.mul Format.binary64 u one) := by
  cases h with
  | zero => exact .zero
  | @finite m j e hm hbits hexponent =>
    refine within_rounded (j := j + 52) (le_scale (Nat.le_mul_of_pos_left _ hm) _) ?_
      (by omega) hleast
    rw [code_exact, Nat.pow_add]
    exact Nat.mul_le_mul_left _ (Nat.mul_le_mul_right _ hbits)

theorem Reaching.mul_one {k : Int} {u : UnpackedFloat} (h : Reaching k u) (hleast : -1074 ≤ k) :
    Reaching k (UnpackedFloat.mul Format.binary64 u one) := by
  cases h with
  | infinite => exact .infinite
  | @finite m j e hm hbits hexponent =>
    refine reaching_rounded (j := j + 52) (le_scale (Nat.le_mul_of_pos_left _ hm) _) ?_
      (by omega) hleast
    rw [code_exact, Nat.pow_add]
    exact Nat.mul_le_mul_left _ (Nat.mul_le_mul_right _ hbits)

theorem ofScientific_natCast (hn : n ≠ 0) : UnpackedFloat.ofScientific Format.binary64 n 0 =
    roundWithAccuracy Format.binary64 .positive (n * 2 ^ 53) (-53) .exact := by
  have hpow : 0 ≤ (2 : Int) ^ Format.binary64.exponentBits := by positivity
  unfold UnpackedFloat.ofScientific
  rw [dif_neg hn, if_neg (by omega), if_neg (by omega), if_pos (Int.le_refl 0)]
  show roundWithAccuracy Format.binary64 (Sign.positive * Sign.positive)
    (n <<< Format.binary64.mantissaBits * 10 ^ Int.toNat 0)
      (-(Format.binary64.mantissaBits : Int) + 0) .exact = _
  have hbits : Format.binary64.mantissaBits = 53 := rfl
  have hsign : Sign.positive * Sign.positive = Sign.positive := rfl
  rw [hbits, hsign, Nat.shiftLeft_eq, Int.toNat_zero, Nat.pow_zero, Nat.mul_one]
  congr 1

/-- The two ways in which a natural number becomes a double. A small one is converted exactly and
multiplied by `one`; any other one is rounded from `n * 2 ^ 53`. -/
theorem unpack_natCast (n : Nat) :
    (n : Float).toModel.unpack = stored (UnpackedFloat.mul Format.binary64
      (stored (UnpackedFloat.normalize Format.binary64 n 0 .positive)) one) ∨
    2 ^ 52 ≤ n * 2 ^ 53 ∧ (n : Float).toModel.unpack =
      stored (roundWithAccuracy Format.binary64 .positive (n * 2 ^ 53) (-53) .exact) := by
  show (Float.ofScientific n false 0).toModel.unpack = _ ∨ _ ∧
    (Float.ofScientific n false 0).toModel.unpack = _
  have hone : Float.exactlyRepresentablePowersOfTen[0] = Float.ofBits 4607182418800017408 := rfl
  unfold Float.ofScientific
  split
  · next hsmall =>
    -- the count fits into a word and is multiplied by one, which rounds a second time
    have hword : n.toUInt64.toNat = n :=
      UInt64.toNat_ofNat_of_lt (Nat.lt_trans hsmall.1 (by decide))
    left
    dsimp only
    rw [if_neg Bool.false_ne_true, hone]
    show (Float.Model.pack (UnpackedFloat.mul Format.binary64 (Float.Model.unpack (Float.Model.pack
      (UnpackedFloat.normalize Format.binary64 (n.toUInt64.toNat : Int) 0 .positive)))
        one)).unpack = _
    rw [hword, unpack_pack (canonical_mul_one _), unpack_pack (canonical_normalize n)]
  · next hlarge =>
    -- a larger count is shifted and rounded once
    have hbits : 2 ^ 52 ≤ n * 2 ^ 53 := by omega
    refine .inr ⟨hbits, ?_⟩
    show (Float.Model.pack (UnpackedFloat.ofScientific Format.binary64 n 0)).unpack = _
    rw [ofScientific_natCast (by omega), unpack_pack (canonical_rounded hbits _ _)]

/-- A number up to a power of two is converted to a double `UpTo` that power. -/
theorem upTo_natCast (hn : n ≤ 2 ^ j) (hj : j ≤ 1023) : UpTo j (n : Float) := by
  have hmost : (j : Int) ≤ 1023 := by omega
  unfold UpTo
  rcases unpack_natCast n with hunpack | ⟨hbits, hunpack⟩
  · rw [hunpack]
    have hone := ((within_normalize hn).stored (canonical_normalize n) hmost).mul_one (by omega)
    exact hone.stored (canonical_mul_one _) hmost
  · rw [hunpack]
    refine (within_rounded (j := j + 53) (le_scale hbits _) ?_ (by omega) (by omega)).stored
      (canonical_rounded hbits _ _) hmost
    rw [code_exact, Nat.pow_add]
    exact Nat.mul_le_mul_left _ (Nat.mul_le_mul_right _ hn)

/-- A number from a power of two on is converted to a double `From` that power on, be
it infinite. -/
theorem from_natCast (hn : 2 ^ j ≤ n) : From j (n : Float) := by
  unfold From
  rcases unpack_natCast n with hunpack | ⟨hbits, hunpack⟩
  · rw [hunpack]
    exact ((reaching_normalize hn).stored.mul_one (by omega)).stored
  · rw [hunpack]
    refine (reaching_rounded (j := j + 53) (le_scale hbits _) ?_ (by omega) (by omega)).stored
    rw [code_exact, Nat.pow_add]
    exact Nat.mul_le_mul_left _ (Nat.mul_le_mul_right _ hn)

end Counts

end Headroom.Rounding
