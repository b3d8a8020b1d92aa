import Mathlib.Data.Int.Order.Basic
import Mathlib.Data.Prod.Lex
import Mathlib.Order.Compare

/-!
# How doubles compare

Two doubles that are numbers always compare, and one that is not a number compares with nothing. So
a test that fails need not mean that the opposite one holds. This module says when it does.

* **`place`**: the doubles that are numbers in a row, as elements of a linear order.
* **`compare_tells`**: comparing two of them is comparing their places.
* **`lt_iff`, `le_iff`**: the two tests, for all doubles. Whatever else is said here follows from
  them.
-/

namespace Headroom.Doubles

open Float.Model Float.Model.UnpackedFloat

/-- Where a value stands among all others: the infinities outside, the zeros in the middle, and in
between by exponent and mantissa. Negative values are mirrored. -/
def place : UnpackedFloat → Int ×ₗ Int ×ₗ Int
  | .infinity .negative => toLex (-2, toLex (0, 0))
  | .finite .negative m e _ => toLex (-1, toLex (-e, -m))
  | .finite .positive m e _ => toLex (1, toLex (e, m))
  | .infinity .positive => toLex (2, toLex (0, 0))
  | .zero _ | .notANumber => toLex (0, toLex (0, 0))

/-- The outcome `o` of a comparison fits the places of two values. All three outcomes are in one
statement, so that it can be read in either direction. -/
structure Tells (u v : UnpackedFloat) (o : Ordering) : Prop where
  lt : o = .lt ↔ place u < place v
  gt : o = .gt ↔ place v < place u

/-- Two positive values are compared by exponent and then by mantissa. -/
theorem tells_positive {m n : Nat} {e d : Int} (hm : 0 < m) (hn : 0 < n) :
    Tells (.finite .positive m e hm) (.finite .positive n d hn)
      ((compare e d).then (compare m n)) := by
  constructor <;> dsimp only [place] <;>
    simp only [Prod.Lex.toLex_lt_toLex, Ordering.then_eq_lt, Ordering.then_eq_gt,
      compare_lt_iff_lt, compare_gt_iff_gt, compare_eq_iff_eq, true_and] <;>
    omega

/-- Two negative values are compared in the same way, with the outcome swapped. -/
theorem tells_negative {m n : Nat} {e d : Int} (hm : 0 < m) (hn : 0 < n) :
    Tells (.finite .negative m e hm) (.finite .negative n d hn)
      ((compare e d).then (compare m n)).swap := by
  constructor <;> dsimp only [place] <;>
    simp only [Prod.Lex.toLex_lt_toLex, Ordering.swap_eq_lt, Ordering.swap_eq_gt,
      Ordering.then_eq_lt, Ordering.then_eq_gt, compare_lt_iff_lt, compare_gt_iff_gt,
      compare_eq_iff_eq, true_and] <;>
    omega

theorem compare_signs :
    compare Sign.negative Sign.positive = .lt ∧ compare Sign.positive Sign.negative = .gt ∧
      ∀ s : Sign, compare s s = .eq :=
  ⟨rfl, rfl, fun s => by cases s <;> rfl⟩

/-- Values that are numbers can be compared, and the outcome is that of comparing their `place`. -/
theorem compare_tells {u v : UnpackedFloat} (hu : u ≠ .notANumber) (hv : v ≠ .notANumber) :
    ∃ o, u.compare v = some o ∧ Tells u v o := by
  rcases u with (_ | _) | _ | s | ⟨(_ | _), m, e, hm⟩ <;>
    rcases v with (_ | _) | _ | t | ⟨(_ | _), n, d, hn⟩
  any_goals exact absurd rfl hu
  any_goals exact absurd rfl hv
  case finite.positive.finite.positive => exact ⟨_, rfl, tells_positive hm hn⟩
  case finite.negative.finite.negative => exact ⟨_, rfl, tells_negative hm hn⟩
  -- in all other cases the first components of the places decide
  all_goals
    refine ⟨_, rfl, ?_, ?_⟩ <;> dsimp only [place] <;>
      simp [Prod.Lex.toLex_lt_toLex, compare_signs]

/-! ## The two tests -/

theorem isNaN_eq_false_iff {x : Float} : x.isNaN = false ↔ x.toModel.unpack ≠ .notANumber := by
  show x.toModel.unpack.isNaN = false ↔ _
  cases x.toModel.unpack with
  | notANumber => exact iff_of_false nofun (fun h => h rfl)
  | _ => exact iff_of_true rfl nofun

/-- What is not a number compares to nothing: `compare` gives no outcome. -/
theorem compare_of_isNaN {x y : Float} (h : x.isNaN = true ∨ y.isNaN = true) :
    x.toModel.unpack.compare y.toModel.unpack = none := by
  have hnan : x.toModel.unpack = .notANumber ∨ y.toModel.unpack = .notANumber := by
    by_contra hnone
    rw [not_or, ← ne_eq, ← ne_eq, ← isNaN_eq_false_iff, ← isNaN_eq_false_iff] at hnone
    rw [hnone.1, hnone.2] at h
    exact absurd h (by decide)
  rcases hnan with hx | hy
  · rw [hx]
    rfl
  · rw [hy]
    cases x.toModel.unpack <;> rfl

/-- The place of a double; that of one that is not a number means nothing. -/
def position (x : Float) : Int ×ₗ Int ×ₗ Int := place x.toModel.unpack

/-- The test `<` on doubles: both are numbers, and their positions are in order. -/
theorem lt_iff {x y : Float} :
    x < y ↔ x.isNaN = false ∧ y.isNaN = false ∧ position x < position y := by
  have htest : x < y ↔ x.toModel.unpack.compare y.toModel.unpack = some .lt :=
    decide_eq_true_iff.trans beq_iff_eq
  rw [htest]
  by_cases hnan : x.isNaN = true ∨ y.isNaN = true
  · rw [compare_of_isNaN hnan]
    refine iff_of_false nofun fun h => ?_
    rw [h.1, h.2.1] at hnan
    exact absurd hnan (by decide)
  · rw [not_or, Bool.not_eq_true, Bool.not_eq_true] at hnan
    obtain ⟨o, ho, htells⟩ := compare_tells (isNaN_eq_false_iff.mp hnan.1)
      (isNaN_eq_false_iff.mp hnan.2)
    rw [ho, Option.some.injEq, htells.lt]
    exact ⟨fun h => ⟨hnan.1, hnan.2, h⟩, fun h => h.2.2⟩

/-- The test `≤` on doubles. It is not the negation of the opposite test, because of what is not a
number. -/
theorem le_iff {x y : Float} :
    x ≤ y ↔ x.isNaN = false ∧ y.isNaN = false ∧ position x ≤ position y := by
  have htest : x ≤ y ↔ (x.toModel.unpack.compare y.toModel.unpack).any (·.isLE) = true :=
    decide_eq_true_iff
  rw [htest]
  by_cases hnan : x.isNaN = true ∨ y.isNaN = true
  · rw [compare_of_isNaN hnan]
    refine iff_of_false nofun fun h => ?_
    rw [h.1, h.2.1] at hnan
    exact absurd hnan (by decide)
  · rw [not_or, Bool.not_eq_true, Bool.not_eq_true] at hnan
    obtain ⟨o, ho, htells⟩ := compare_tells (isNaN_eq_false_iff.mp hnan.1)
      (isNaN_eq_false_iff.mp hnan.2)
    have hle : o.isLE = true ↔ position x ≤ position y := by
      rw [← not_lt, position, position, ← htells.gt]
      cases o <;> simp
    rw [ho, Option.any_some, hle]
    exact ⟨fun h => ⟨hnan.1, hnan.2, h⟩, fun h => h.2.2⟩

theorem lt_of_le_of_lt {x y z : Float} (hxy : x ≤ y) (hyz : y < z) : x < z := by
  obtain ⟨hx, -, hle⟩ := le_iff.mp hxy
  obtain ⟨-, hz, hlt⟩ := lt_iff.mp hyz
  exact lt_iff.mpr ⟨hx, hz, hle.trans_lt hlt⟩

theorem lt_of_lt_of_le {x y z : Float} (hxy : x < y) (hyz : y ≤ z) : x < z := by
  obtain ⟨hx, -, hlt⟩ := lt_iff.mp hxy
  obtain ⟨-, hz, hle⟩ := le_iff.mp hyz
  exact lt_iff.mpr ⟨hx, hz, hlt.trans_le hle⟩

/-- Doubles that are not numbers do not keep the test from being a strict order: they are below and
above nothing. -/
instance isStrictOrder_lt : IsStrictOrder Float (· < ·) where
  irrefl x h := lt_irrefl (position x) (lt_iff.mp h).2.2
  trans x y z hxy hyz := by
    obtain ⟨hx, -, hlt⟩ := lt_iff.mp hxy
    obtain ⟨-, hz, hlt'⟩ := lt_iff.mp hyz
    exact lt_iff.mpr ⟨hx, hz, hlt.trans hlt'⟩

theorem le_trans {x y z : Float} (hxy : x ≤ y) (hyz : y ≤ z) : x ≤ z := by
  obtain ⟨hx, -, hle⟩ := le_iff.mp hxy
  obtain ⟨-, hz, hle'⟩ := le_iff.mp hyz
  exact le_iff.mpr ⟨hx, hz, hle.trans hle'⟩

/-- A test `<` that fails says that the opposite one holds, or that one of the two is not
a number. -/
theorem not_lt_iff {x y : Float} : ¬x < y ↔ y ≤ x ∨ x.isNaN = true ∨ y.isNaN = true := by
  rw [lt_iff, le_iff, ← not_lt]
  cases x.isNaN <;> cases y.isNaN <;> simp

/-- The same for `≤`: it fails for two numbers in the opposite order, and always for what is not a
number. -/
theorem not_le_iff {x y : Float} : ¬x ≤ y ↔ y < x ∨ x.isNaN = true ∨ y.isNaN = true := by
  rw [lt_iff, le_iff, ← not_le]
  cases x.isNaN <;> cases y.isNaN <;> simp

end Headroom.Doubles
