import Headroom.Proofs.Fields
import Headroom.Proofs.Magnitudes
import Headroom.Profile.Run
import Headroom.Report.Duration
import Mathlib.Tactic.FinCases

/-!
# How long a number gets

Reports are written into fields of limited size. How many bytes a number takes is a matter of its
magnitude alone, and the magnitude of a double that was computed from counts is known well enough
without its digits.

* **`Rounding.decode_eq`**: the printers see the value that the arithmetic sees.
* **`Figure`**: a word of at most so many bytes, all of which occur in numbers and units of time.
* **`Figure.render`**, **`Figure.duration`**: the text of a bounded double, and of a time.
* **`Profile.upTo_rate`**: the rate of calls that take a nanosecond each at least.
-/

namespace Headroom

/-! ## What is printed -/

namespace Rounding

open Float.Model Float.Model.UnpackedFloat

/-- A value taken apart as the printers do it. They read the bits of a double with divisions, where
the model of arithmetic has fields; `decode_eq` says that both find the same. -/
def shape : UnpackedFloat → Binary64.Shape
  | .notANumber => .nan
  | .infinity s => .infinite (s matches .negative)
  | .zero s => .finite (s matches .negative) 0 Binary64.leastExponent
  | .finite s m e _ => .finite (s matches .negative) m e

section Bits

variable (b : BitVec Format.binary64.numBits)

theorem toNat_unpackMantissa : (unpackMantissa b).toNat = b.toNat % 2 ^ 52 := by
  show ((BitVec.extractLsb 51 0 b).cast _).toNat = _
  rw [BitVec.toNat_cast, BitVec.extractLsb_toNat, Nat.shiftRight_zero]

theorem toNat_unpackExponent : (unpackExponent b).toNat = b.toNat / 2 ^ 52 % 2 ^ 11 := by
  show ((BitVec.extractLsb 62 52 b).cast _).toNat = _
  rw [BitVec.toNat_cast, BitVec.extractLsb_toNat, Nat.shiftRight_eq_div_pow]

theorem unpackSign_eq_zero_iff : unpackSign b = 0#1 ↔ b.toNat / 2 ^ 63 = 0 := by
  have hlt : b.toNat < 2 ^ 64 := b.isLt
  have hsign : (unpackSign b).toNat = b.toNat / 2 ^ 63 := by
    show ((BitVec.extractLsb 63 63 b).cast _).toNat = _
    rw [BitVec.toNat_cast, BitVec.extractLsb_toNat, Nat.shiftRight_eq_div_pow]
    omega
  rw [← BitVec.toNat_inj, hsign]
  rfl

theorem negative_ofBitVec :
    (Sign.ofBitVec (unpackSign b) matches .negative) = (b.toNat / 2 ^ 63 == 1) := by
  have hlt : b.toNat < 2 ^ 64 := b.isLt
  unfold Sign.ofBitVec
  by_cases hzero : b.toNat / 2 ^ 63 = 0
  · rw [if_pos ((unpackSign_eq_zero_iff b).mpr hzero), hzero]
    rfl
  · rw [if_neg (mt (unpackSign_eq_zero_iff b).mp hzero), show b.toNat / 2 ^ 63 = 1 by omega]
    rfl

end Bits

/-- The printers' view of the bits of a double, `Binary64.decode`, agrees with the value that
arithmetic is about. -/
theorem decode_eq (x : Float) : Binary64.decode x = shape x.toModel.unpack := by
  show Binary64.decode x = shape (UnpackedFloat.unpack Format.binary64 x.toModel.toBits.toBitVec)
  have hbits : x.toBits.toNat = BitVec.toNat x.toModel.toBits.toBitVec := rfl
  unfold Binary64.decode UnpackedFloat.unpack
  dsimp only [Nat.pow_eq]
  obtain ⟨b, hb⟩ : ∃ b : BitVec Format.binary64.numBits, x.toModel.toBits.toBitVec = b := ⟨_, rfl⟩
  rw [hbits, hb]
  have hm := toNat_unpackMantissa b
  have he := toNat_unpackExponent b
  have hs := negative_ofBitVec b
  rw [← hm, ← he, ← hs]
  have hlast : unpackExponent b = -1#11 ↔ (unpackExponent b).toNat = 2047 := BitVec.toNat_inj.symm
  have hfirst : unpackExponent b = 0#11 ↔ (unpackExponent b).toNat = 0 := BitVec.toNat_inj.symm
  have hnone : unpackMantissa b = 0#52 ↔ (unpackMantissa b).toNat = 0 := BitVec.toNat_inj.symm
  have himplicit : (1#1 ++ unpackMantissa b).toNat = 2 ^ 52 + (unpackMantissa b).toNat := by
    rw [BitVec.toNat_append, ← Nat.shiftLeft_add_eq_or_of_lt (BitVec.isLt _)]
    rfl
  -- both sides look at the exponent first, then at the mantissa
  by_cases hinfinite : (unpackExponent b).toNat = 2047
  · rw [if_pos (beq_iff_eq.mpr hinfinite), if_pos (hlast.mpr hinfinite)]
    by_cases hzero : (unpackMantissa b).toNat = 0
    · rw [if_pos (beq_iff_eq.mpr hzero), if_pos (hnone.mpr hzero)]
      rfl
    · rw [if_neg (mt beq_iff_eq.mp hzero), if_neg (mt hnone.mp hzero)]
      rfl
  · rw [if_neg (mt beq_iff_eq.mp hinfinite), if_neg (mt hlast.mp hinfinite)]
    by_cases hleast : (unpackExponent b).toNat = 0
    · rw [if_pos (beq_iff_eq.mpr hleast), if_pos (hfirst.mpr hleast)]
      by_cases hzero : (unpackMantissa b).toNat = 0
      · rw [dif_pos (hnone.mpr hzero), hzero]
        rfl
      · rw [dif_neg (mt hnone.mp hzero)]
        dsimp only [shape]
        rw [hleast]
        rfl
    · rw [if_neg (mt beq_iff_eq.mp hleast), if_neg (mt hfirst.mp hleast)]
      dsimp only [shape]
      rw [himplicit]
      congr 1
      show _ + (-1074) - 1 = ((unpackExponent b).toNat : Int) - (1023 + 52)
      omega

end Rounding

namespace Fixed

theorem roundDiv_le {n d c : Nat} (hd : 0 < d) (h : n ≤ c * d) : Binary64.roundDiv n d ≤ c := by
  have hq : n / d ≤ c := Nat.div_le_of_le_mul (by rwa [Nat.mul_comm])
  unfold Binary64.roundDiv
  dsimp only
  rcases Nat.lt_or_eq_of_le hq with hlt | heq
  · split
    · omega
    · split <;> omega
  · -- the whole quotient is the bound, so nothing is left to be rounded
    have hrest : n % d = 0 := by
      have hdiv := Nat.div_add_mod n d
      rw [heq, Nat.mul_comm] at hdiv
      omega
    rw [hrest, if_pos (by omega)]
    exact hq

/-- A value up to `2 ^ k` has at most `10 ^ places * 2 ^ k` units of the last place that
is printed. -/
theorem units_le {places m j k : Nat} {e : Int} (hm : m ≤ 2 ^ j) (hk : e + j ≤ k) :
    units places m e ≤ 10 ^ places * 2 ^ k := by
  show Binary64.roundDiv (m * 10 ^ places * 2 ^ e.toNat) (1 * 2 ^ (-e).toNat) ≤ _
  apply roundDiv_le (by positivity)
  calc m * 10 ^ places * 2 ^ e.toNat
    _ ≤ 2 ^ j * 10 ^ places * 2 ^ e.toNat := Nat.mul_le_mul_right _ (Nat.mul_le_mul_right _ hm)
    _ = 10 ^ places * 2 ^ (j + e.toNat) := by rw [Nat.pow_add]; ring
    _ ≤ 10 ^ places * 2 ^ (k + (-e).toNat) :=
      Nat.mul_le_mul_left _ (Nat.pow_le_pow_right (by decide) (by omega))
    _ = 10 ^ places * 2 ^ k * (1 * 2 ^ (-e).toNat) := by rw [Nat.pow_add]; ring

end Fixed

/-! ## Figures -/

/-- Digits, the point, and the letters of the units of time: all that a number or a time is printed
with. -/
def isFigure (c : UInt8) : Bool := Bytes.isDigit c || (text ".nums").contains c

theorem isFigure_of_isDigit {c : UInt8} (h : Bytes.isDigit c = true) : isFigure c = true := by
  rw [isFigure, h, Bool.true_or]

/-- No figure is white space, so what consists of figures (`Figure`) is read back as one word. -/
theorem isSpace_of_isFigure {c : UInt8} (h : isFigure c = true) : Bytes.isSpace c = false := by
  rcases Bool.or_eq_true_iff.mp h with hdigit | hletter
  · exact Bytes.isSpace_of_isDigit hdigit
  · have hmem : c ∈ ([46, 110, 117, 109, 115] : List UInt8) := List.contains_iff_mem.mp hletter
    fin_cases hmem <;> rfl

/-- Something, of at most `width` bytes, all of them figures. A column of a table that has this
width shows it whole and leaves a blank beside it. -/
structure Figure (width : Nat) (s : Bytes) : Prop where
  some : s ≠ []
  short : s.length ≤ width
  plain : ∀ c ∈ s, isFigure c = true

namespace Figure

variable {width : Nat} {s : Bytes}

theorem isWord (h : Figure width s) : Bytes.IsWord s :=
  ⟨h.some, fun c hc => isSpace_of_isFigure (h.plain c hc)⟩

theorem mono {wider : Nat} (h : Figure width s) (hle : width ≤ wider) : Figure wider s :=
  ⟨h.some, Nat.le_trans h.short hle, h.plain⟩

theorem append {more : Nat} {r : Bytes} (hs : Figure width s) (hr : Figure more r) :
    Figure (width + more) (s ++ r) where
  some := List.append_ne_nil_of_left_ne_nil hs.some r
  short := by
    rw [List.length_append]
    exact Nat.add_le_add hs.short hr.short
  plain := List.forall_mem_append.mpr ⟨hs.plain, hr.plain⟩

/-- A number below `10 ^ t` has at most `t` digits. -/
theorem ofNat {n t : Nat} (hn : n < 10 ^ t) (ht : 0 < t) : Figure t (Bytes.ofNat n) where
  some := Bytes.ofNat_ne_nil n
  short := by
    rw [Bytes.ofNat, List.length_map]
    exact (Nat.length_toDigits_le_iff (by decide) ht).mpr hn
  plain := fun _ hc => isFigure_of_isDigit (Bytes.isDigit_of_mem_ofNat hc)

/-- A number with a point has one byte more than its digits. The zeros that are put in front of a
small one are digits as well. -/
theorem layout {places n t : Nat} (hn : n < 10 ^ t) (hplaces : places < t) :
    Figure (t + 1) (Fixed.layout places n) := by
  have hdigits := ofNat hn (by omega)
  have hshort := hdigits.short
  have hplain : ∀ c ∈ List.replicate (places + 1 - (Bytes.ofNat n).length) 48 ++ Bytes.ofNat n,
      isFigure c = true := by
    refine List.forall_mem_append.mpr ⟨fun c hc => ?_, hdigits.plain⟩
    rw [List.eq_of_mem_replicate hc]
    rfl
  have hlength :
      (List.replicate (places + 1 - (Bytes.ofNat n).length) 48 ++ Bytes.ofNat n).length ≤ t := by
    rw [List.length_append, List.length_replicate]
    omega
  have hsome : places < (List.replicate (places + 1 - (Bytes.ofNat n).length) 48 ++
      Bytes.ofNat n).length := by
    rw [List.length_append, List.length_replicate]
    omega
  unfold Fixed.layout
  dsimp only
  generalize List.replicate (places + 1 - (Bytes.ofNat n).length) 48 ++ Bytes.ofNat n = digits at *
  -- without places there is no point; with some there is one byte more
  split
  · refine ⟨?_, ?_, fun c hc => hplain c (List.mem_of_mem_take hc)⟩
    · apply List.ne_nil_of_length_pos
      rw [List.length_take]
      omega
    · rw [List.length_take]
      omega
  · refine ⟨List.append_ne_nil_of_right_ne_nil _ (List.cons_ne_nil _ _), ?_,
      List.forall_mem_append.mpr ⟨?_, ?_⟩⟩
    · rw [List.length_append, List.length_cons, List.length_take, List.length_drop]
      omega
    · exact fun c hc => hplain c (List.mem_of_mem_take hc)
    · exact List.forall_mem_cons.mpr ⟨rfl, fun c hc => hplain c (List.mem_of_mem_drop hc)⟩

/-- A double up to `2 ^ k` is printed within `t + 1` bytes, if `t` digits suffice for the units of
`2 ^ k`. -/
theorem render {places t k : Nat} {x : Float} (hx : Rounding.UpTo k x)
    (ht : 10 ^ places * 2 ^ k < 10 ^ t) (hplaces : places < t) :
    Figure (t + 1) (Fixed.render places x) := by
  unfold Fixed.render
  rw [Rounding.decode_eq]
  unfold Rounding.UpTo at hx
  generalize x.toModel.unpack = u at hx ⊢
  cases hx with
  | zero =>
    have hleast : Binary64.leastExponent + (0 : Nat) ≤ k := by
      unfold Binary64.leastExponent
      omega
    exact layout (Nat.lt_of_le_of_lt (Fixed.units_le (by decide) hleast) ht) hplaces
  | finite hbits hexponent =>
    exact layout (Nat.lt_of_le_of_lt (Fixed.units_le hbits hexponent) ht) hplaces

theorem wording (hsome : s.isEmpty = false) (hplain : s.all isFigure = true) : Figure s.length s :=
  ⟨List.isEmpty_eq_false_iff.mp hsome, Nat.le_refl _, List.all_eq_true.mp hplain⟩

open Rounding in
/-- A time below `2 ^ 63` nanoseconds takes at most 15 bytes. It is given in the largest unit that
it has one of, and seconds are the largest, so only they can be many. -/
theorem duration {ns : Int} (hnonneg : 0 ≤ ns) (hmost : ns < 2 ^ 63) :
    Figure 15 (Report.duration ns) := by
  obtain ⟨n, rfl⟩ := Int.eq_ofNat_of_zero_le hnonneg
  have hkilo : (1000.0 : Float) = ((1000 : Nat) : Float) := rfl
  have hmega : (1000000.0 : Float) = ((1000000 : Nat) : Float) := rfl
  have hgiga : (1000000000.0 : Float) = ((1000000000 : Nat) : Float) := rfl
  have hcast : Float.ofInt (n : Int) = (n : Float) := rfl
  unfold Report.duration
  dsimp only
  rw [hkilo, hmega, hgiga, hcast]
  split
  · next hlt =>
    -- each range bounds the quotient by a power of two, and that bounds its digits
    have hn : n < 2 ^ 10 := by
      by_contra hle
      exact not_lt_of_from (from_natCast (Nat.le_of_not_lt hle))
        (upTo_natCast (by decide) (by decide)) hlt
    have hfigure : Figure 4 (Bytes.ofNat n) := ofNat (Nat.lt_trans hn (by decide)) (by decide)
    exact (hfigure.append (wording (s := text "ns") rfl rfl)).mono (by decide)
  · split
    · next hlt =>
      have hv : UpTo 20 (n : Float) :=
        .of_lt (unsigned_natCast n) hlt (upTo_natCast (j := 20) (by decide) (by decide))
      have hmicro := hv.div (from_natCast (j := 9) (n := 1000) (by decide)) (by decide) (by decide)
      have hfigure := render (k := 11) (t := 5) hmicro (show 10 ^ 1 * 2 ^ 11 < 10 ^ 5 by decide)
        (by decide)
      exact (hfigure.append (wording (s := text "us") rfl rfl)).mono (by decide)
    · split
      · next hlt =>
        have hv : UpTo 30 (n : Float) :=
          .of_lt (unsigned_natCast n) hlt (upTo_natCast (j := 30) (by decide) (by decide))
        have hmilli := hv.div (from_natCast (j := 19) (n := 1000000) (by decide)) (by decide)
          (by decide)
        have hfigure := render (k := 11) (t := 6) hmilli (show 10 ^ 2 * 2 ^ 11 < 10 ^ 6 by decide)
          (by decide)
        exact (hfigure.append (wording (s := text "ms") rfl rfl)).mono (by decide)
      · have hv : UpTo 63 (n : Float) := upTo_natCast (j := 63) (by omega) (by decide)
        have hsecond := hv.div (from_natCast (j := 29) (n := 1000000000) (by decide)) (by decide)
          (by decide)
        have hfigure := render (k := 34) (t := 13) hsecond (show 10 ^ 2 * 2 ^ 34 < 10 ^ 13 by
          decide) (by decide)
        exact hfigure.append (wording (s := text "s") rfl rfl)

end Figure

theorem Report.mem_padLeft {width : Nat} {s : Bytes} {c : UInt8} (hc : c ∈ Bytes.padLeft width s) :
    c = 32 ∨ c ∈ s := by
  rcases List.mem_append.mp hc with hpad | hs
  · exact .inl (List.eq_of_mem_replicate hpad)
  · exact .inr hs

namespace Profile

open Rounding

/-- Threads that call at most once in a nanosecond each, fewer than 2³¹ of them, call at most 2⁶²
times in a second. The bound is a power of two, so `UpTo.div` gives it in spite of rounding. -/
theorem upTo_rate {operations : Nat} {elapsed : Int}
    (hcalls : (operations : Int) ≤ 2 ^ 31 * elapsed) (hpos : 0 < elapsed)
    (hmost : elapsed < 2 ^ 64) : UpTo 62 (rate operations elapsed) := by
  obtain ⟨n, rfl⟩ := Int.eq_ofNat_of_zero_le (Int.le_of_lt hpos)
  have hgiga : (1000000000.0 : Float) = ((1000000000 : Nat) : Float) := rfl
  have hcast : Float.ofInt (n : Int) = (n : Float) := rfl
  unfold rate
  dsimp only
  rw [hgiga, hcast]
  -- the power of two below the time is divided out again
  split
  · have hlog : n.log2 < 64 := (Nat.log2_lt (by omega)).mpr (by omega)
    have hlow : 2 ^ n.log2 ≤ n := Nat.log2_self_le (by omega)
    have hhigh : n < 2 ^ (n.log2 + 1) := Nat.lt_log2_self
    have hseconds : From (n.log2 - (30 : Nat)) ((n : Float) / ((1000000000 : Nat) : Float)) :=
      (from_natCast hlow).div (upTo_natCast (by decide) (by decide)) (by omega)
    have hoperations : UpTo (n.log2 + 32 : Nat) (operations : Float) := by
      apply upTo_natCast
      · rw [show n.log2 + 32 = n.log2 + 1 + 31 by omega, Nat.pow_add]
        omega
      · omega
    have hrate := hoperations.div hseconds (by omega) (by omega)
    rwa [show ((n.log2 + 32 : Nat) : Int) - (n.log2 - (30 : Nat)) = 62 by omega] at hrate
  · exact .zero

end Profile

end Headroom
