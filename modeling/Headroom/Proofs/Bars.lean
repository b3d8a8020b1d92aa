import Headroom.Proofs.Nearest
import Headroom.Proofs.Strings
import Headroom.Report.Plot

/-!
# The bars of a plot

A plot is drawn row by row from the top, and in each row every level is compared with the step of
the row. That the marks of a column make up a bar is nowhere said; it is a matter of the order of
the steps, which are computed as rounded shares of the peak.

* **`MonotoneArithmetic`**: what is asked of the arithmetic. Exact numbers have it, and so have
  doubles.
* **`Report.marked`**, **`Report.barHeight`**: what is seen of a plot, from its text alone.
* **`Report.marked_barRow`**: a row has a mark in the columns of the levels that reach its step.
* **`Report.plot_draws_bars`**: how many lines and cells there are, and which cells are marked.
-/

namespace Headroom

open Profile

/-! ## Arithmetic -/

/-- Arithmetic on quantities that are not negative, in which products and quotients are rounded
monotonically and shares of a whole are not rounded to nothing. Counts are those of a word of 32
bits with a sign. The plot needs no more, so its bars are solid both with exact numbers and with
doubles. -/
class MonotoneArithmetic (α : Type) [NatCast α] [OfNat α 0] [Mul α] [Div α] [LT α] [LE α] :
    Prop where
  zero_le_zero : (0 : α) ≤ 0
  lt_irrefl (x : α) : ¬x < x
  le_of_lt {x y : α} : x < y → x ≤ y
  le_trans {x y z : α} : x ≤ y → y ≤ z → x ≤ z
  le_or_lt {x y : α} : 0 ≤ x → 0 ≤ y → x ≤ y ∨ y < x
  le_antisymm {x y : α} : 0 < x → x ≤ y → y ≤ x → x = y
  share_pos {h n : Nat} : 0 < h → h ≤ n → n < 2 ^ 31 → 0 < (h : α) / (n : α)
  share_le_share {h k n : Nat} : 0 < h → h ≤ k → k ≤ n → n < 2 ^ 31 →
    (h : α) / (n : α) ≤ (k : α) / (n : α)
  mul_le_mul {x y z : α} : 0 < x → x ≤ y → 0 < z → x * z ≤ y * z
  whole_mul {n : Nat} {x : α} : 0 < n → n < 2 ^ 31 → 0 < x → (n : α) / (n : α) * x = x

theorem MonotoneArithmetic.le_self {α : Type} [NatCast α] [OfNat α 0] [Mul α] [Div α] [LT α] [LE α]
    [MonotoneArithmetic α] {x : α} (hx : 0 ≤ x) : x ≤ x :=
  (le_or_lt hx hx).elim id le_of_lt

/-- Exact numbers are not rounded at all. -/
instance {K : Type} [Field K] [LinearOrder K] [IsStrictOrderedRing K] : MonotoneArithmetic K where
  zero_le_zero := le_refl 0
  lt_irrefl := lt_irrefl
  le_of_lt := le_of_lt
  le_trans := le_trans
  le_or_lt _ _ := le_or_gt _ _
  le_antisymm _ := le_antisymm
  share_pos hh hn _ := div_pos (Nat.cast_pos.mpr hh) (Nat.cast_pos.mpr (hh.trans_le hn))
  share_le_share _ hk _ _ := div_le_div_of_nonneg_right (Nat.cast_le.mpr hk) (Nat.cast_nonneg _)
  mul_le_mul _ hle hz := mul_le_mul_of_nonneg_right hle hz.le
  whole_mul hn _ _ := by rw [div_self (Nat.cast_ne_zero.mpr hn.ne'), one_mul]

namespace Rounding

open Float.Model

variable {x y z : Float}

/-- A share of a count, computed with doubles, `Rounds` the exact share. -/
theorem rounds_share {h n : Nat} (hh : 0 < h) (hn : h ≤ n) (hmost : n < 2 ^ 31) :
    Rounds ((h : Float) / (n : Float)) ((h : ℚ) / n) :=
  (exactly_natCast hh (by omega)).div (exactly_natCast (by omega) (by omega))

theorem exactly_least : Exactly (Float.ofBits 1) ((1 : Nat) * 2 ^ (-1074 : Int)) :=
  ⟨1, -1074, by decide, rfl, rfl⟩

/-- What is at least the smallest positive double is not rounded to zero (`exactly_least`). -/
theorem pos_of_rounds {v : ℚ} (hx : Rounds x v) (hv : 2 ^ (-1074 : Int) ≤ v) : 0 < x := by
  have hleast : Float.ofBits 1 ≤ x :=
    exactly_least.rounds.le hx exactly_least.pos (by rwa [Nat.cast_one, one_mul])
  exact Doubles.lt_of_lt_of_le exactly_least.zero_lt hleast

/-- A share of a count below `2 ^ 31` is far above the smallest double. -/
theorem share_ge {h n : Nat} (hh : 0 < h) (hn : h ≤ n) (hmost : n < 2 ^ 31) :
    (2 : ℚ) ^ (-1074 : Int) ≤ h / n := by
  have hn' : (0 : ℚ) < n := by exact_mod_cast Nat.lt_of_lt_of_le hh hn
  rw [le_div_iff₀ hn']
  calc (2 : ℚ) ^ (-1074 : Int) * n
    _ ≤ 2 ^ (-31 : Int) * 2 ^ (31 : Int) := by
      gcongr
      · exact one_le_two
      · decide
      · exact_mod_cast hmost.le
    _ = 1 := by norm_num
    _ ≤ h := by exact_mod_cast hh

/-- A product with something infinite is infinite, if the other factor is positive as well. -/
theorem mul_infinite (hx : 0 < x) (hy : 0 < y)
    (h : x.toModel.unpack = .infinity .positive ∨ y.toModel.unpack = .infinity .positive) :
    (x * y).toModel.unpack = .infinity .positive := by
  have hproduct : UnpackedFloat.mul Format.binary64 x.toModel.unpack y.toModel.unpack =
      .infinity .positive := by
    rcases pos_iff.mp hx with hux | ⟨_, m, e, hm, hux, -⟩ <;>
      rcases pos_iff.mp hy with huy | ⟨_, n, d, hn, huy, -⟩ <;> rw [hux, huy] at h ⊢
    · rfl
    · rfl
    · rfl
    · rcases h with h | h <;> cases h
  show (Float.Model.pack (UnpackedFloat.mul Format.binary64 x.toModel.unpack
    y.toModel.unpack)).unpack = _
  rw [hproduct]
  exact unpack_pack trivial

theorem isNaN_of_infinite (hx : x.toModel.unpack = .infinity .positive) : x.isNaN = false := by
  rw [Doubles.isNaN_eq_false_iff, hx]
  exact nofun

theorem le_of_infinite (hx : x.isNaN = false) (hy : y.toModel.unpack = .infinity .positive) :
    x ≤ y := by
  refine Doubles.le_iff.mpr ⟨hx, isNaN_of_infinite hy, ?_⟩
  rw [Doubles.position, Doubles.position, hy]
  exact (AtMost.infinite _).place_le

/-- A product of positive doubles is a number: infinity times zero does not arise. -/
theorem isNaN_mul (hx : 0 < x) (hy : 0 < y) : (x * y).isNaN = false := by
  rcases pos_iff.mp hx with hux | ⟨v, hv⟩
  · exact isNaN_of_infinite (mul_infinite hx hy (.inl hux))
  rcases pos_iff.mp hy with huy | ⟨w, hw⟩
  · exact isNaN_of_infinite (mul_infinite hx hy (.inr huy))
  · exact (hv.mul hw).isNaN_eq_false

/-- A product of doubles grows with its first factor. Both products are rounded, and `Rounds.le`
keeps their order. -/
theorem mul_le_mul_of_pos (hx : 0 < x) (hle : x ≤ y) (hz : 0 < z) : x * z ≤ y * z := by
  have hy := Doubles.lt_of_lt_of_le hx hle
  -- nothing is above an infinite product; what is left is a product of two numbers on either side
  rcases pos_iff.mp hz with huz | ⟨w, hw⟩
  · exact le_of_infinite (isNaN_mul hx hz) (mul_infinite hy hz (.inr huz))
  rcases pos_iff.mp hy with huy | ⟨v', hv'⟩
  · exact le_of_infinite (isNaN_mul hx hz) (mul_infinite hy hz (.inl huy))
  · obtain ⟨v, hv⟩ := exactly_of_le hx hle hv'
    have hvalue : v ≤ v' := (hv.le_iff hv').mp hle
    refine (hv.mul hw).le (hv'.mul hw) (mul_pos hv.pos hw.pos) ?_
    have := hw.pos
    gcongr

theorem one_mul_of_pos (hx : Exactly x 1) (hy : 0 < y) : x * y = y := by
  have hx' := hx.zero_lt
  apply eq_of_unpack (Doubles.isNaN_eq_false_iff.mp (isNaN_mul hx' hy))
  rcases pos_iff.mp hy with huy | ⟨w, hw⟩
  · rw [mul_infinite hx' hy (.inr huy), huy]
  · have hproduct := hx.mul hw
    rw [one_mul] at hproduct
    exact hproduct.trans hw.rounds.symm

end Rounding

open Rounding in
/-- Doubles are rounded, but monotonically. -/
instance : MonotoneArithmetic Float where
  zero_le_zero := by decide
  lt_irrefl x h := lt_irrefl _ (Doubles.lt_iff.mp h).2.2
  le_of_lt h := by
    obtain ⟨hx, hy, hlt⟩ := Doubles.lt_iff.mp h
    exact Doubles.le_iff.mpr ⟨hx, hy, hlt.le⟩
  le_trans := Doubles.le_trans
  le_or_lt hx hy := by
    have hx := (Doubles.le_iff.mp hx).2.1
    have hy := (Doubles.le_iff.mp hy).2.1
    rcases le_or_gt (Doubles.position _) (Doubles.position _) with hle | hlt
    · exact .inl (Doubles.le_iff.mpr ⟨hx, hy, hle⟩)
    · exact .inr (Doubles.lt_iff.mpr ⟨hy, hx, hlt⟩)
  le_antisymm hx hle hge :=
    eq_of_position hx (le_antisymm (Doubles.le_iff.mp hle).2.2 (Doubles.le_iff.mp hge).2.2)
  share_pos hh hn hmost := pos_of_rounds (rounds_share hh hn hmost) (share_ge hh hn hmost)
  share_le_share hh hk hn hmost := by
    refine (rounds_share hh (hk.trans hn) hmost).le (rounds_share (hh.trans_le hk) hn hmost) ?_ ?_
    · exact lt_of_lt_of_le (by positivity) (share_ge hh (hk.trans hn) hmost)
    · gcongr
  mul_le_mul := mul_le_mul_of_pos
  whole_mul hn hmost := one_mul_of_pos (exactly_natCast hn (by omega)).div_self

namespace Report

/-! ## What stands around the bars -/

/-- Bytes that stand around the bars: digits, blanks, the percent sign, and what the axis is drawn
with. -/
def isFrame (c : UInt8) : Bool := Bytes.isDigit c || (text " %+-").contains c

theorem isFrame_of_mem_ofNat {n : Nat} {c : UInt8} (hc : c ∈ Bytes.ofNat n) : isFrame c = true := by
  rw [isFrame, Bytes.isDigit_of_mem_ofNat hc, Bool.true_or]

theorem isFrame_of_mem_ofInt {z : Int} {c : UInt8} (hc : c ∈ Bytes.ofInt z) : isFrame c = true := by
  cases z with
  | ofNat n => exact isFrame_of_mem_ofNat hc
  | negSucc n =>
    rcases List.mem_cons.mp hc with rfl | hc
    · decide
    · exact isFrame_of_mem_ofNat hc

theorem isFrame_of_mem_padLeft {width : Nat} {s : Bytes} (hs : ∀ c ∈ s, isFrame c = true)
    {c : UInt8} (hc : c ∈ Bytes.padLeft width s) : isFrame c = true := by
  rcases mem_padLeft hc with rfl | hc
  · decide
  · exact hs c hc

/-- The part of a row before its axis: the share of the peak that the row stands for, in percent. -/
def label (n h : Nat) : Bytes := Bytes.padLeft 5 (Bytes.ofInt (percentage n h)) ++ text "% "

theorem isFrame_of_mem_label {n h : Nat} {c : UInt8} (hc : c ∈ label n h) : isFrame c = true := by
  rcases List.mem_append.mp hc with hc | hc
  · exact isFrame_of_mem_padLeft (fun _ => isFrame_of_mem_ofInt) hc
  · exact List.all_eq_true.mp (show (text "% ").all isFrame = true by decide) c hc

theorem bar_not_mem_label (n h : Nat) : 124 ∉ label n h :=
  fun hmem => absurd (isFrame_of_mem_label hmem) (by decide)

def title : Bytes := text "Throughput vs thread count"

section
variable {α : Type} {a : Analysis α}

def axis (a : Analysis α) : Bytes := text "       +" ++ List.replicate (a.levels.length * 3) 45

theorem isFrame_of_mem_axis {c : UInt8} (hc : c ∈ axis a) : isFrame c = true := by
  rcases List.mem_append.mp hc with hc | hc
  · exact List.all_eq_true.mp (show (text "       +").all isFrame = true by decide) c hc
  · rw [List.eq_of_mem_replicate hc]
    decide

def columnLabels (a : Analysis α) : Bytes :=
  text "        " ++ a.levels.flatMap fun l => Bytes.padLeft 3 (Bytes.ofInt l.threads)

theorem isFrame_of_mem_columnLabels {c : UInt8} (hc : c ∈ columnLabels a) : isFrame c = true := by
  rcases List.mem_append.mp hc with hc | hc
  · exact List.all_eq_true.mp (show (text "        ").all isFrame = true by decide) c hc
  obtain ⟨l, -, hc⟩ := List.mem_flatMap.mp hc
  exact isFrame_of_mem_padLeft (fun _ => isFrame_of_mem_ofInt) hc

/-- Cells are three bytes wide, with the mark in the last one. -/
theorem getElem?_cells (levels : List (Level α)) (mark : Level α → UInt8) (column : Nat) :
    (levels.flatMap fun l => [32, 32, mark l])[3 * column + 2]? = levels[column]?.map mark := by
  induction levels generalizing column with
  | nil => rfl
  | cons first rest ih =>
    cases column with
    | zero => rfl
    | succ column => exact ih column

end

/-! ## What is seen of a plot -/

/-- The cells of a row: what comes after its axis. The first bar in a row is the axis, since no
label has one. -/
def cells (row : Bytes) : Bytes := ((Bytes.cut? 124 row).map Prod.snd).getD []

/-- Whether a row has a mark in a column. Cells are three bytes wide and have it in the last. -/
def marked (row : Bytes) (column : Nat) : Bool := (cells row)[3 * column + 2]? == some 35

/-- How many rows have a mark in a column: the height of its bar, since bars are `solid`. -/
def barHeight (body : List Bytes) (column : Nat) : Nat := body.countP (marked · column)

section
variable {α : Type} [NatCast α] [OfNat α 0] [Mul α] [Div α] [LT α] [LE α] [DecidableLT α]
  [DecidableLE α]

/-- Rows of a plot, from the top, whose marks make up a bar for each level: `solid`, with heights in
the order of the throughputs (`ordered`), and as high as the plot for the peak and for nothing else
(`top`). -/
structure DrawsBars (a : Analysis α) (body : List Bytes) : Prop where
  /-- A row has a label, the axis, and a cell for each level. -/
  row_eq : ∀ row ∈ body, ∃ (label : Bytes) (cs : List Bytes), row = label ++ 124 :: cs.flatten ∧
    124 ∉ label ∧
    cs.length = a.levels.length ∧ ∀ cell ∈ cs, cell = text "  #" ∨ cell = text "   "
  /-- Below a mark there are marks. -/
  solid : ∀ {i j column : Nat} {upper lower : Bytes}, i ≤ j → body[i]? = some upper →
    body[j]? = some lower →
    marked upper column = true → marked lower column = true
  /-- The peak reaches the top, and nothing else does. -/
  top : 0 < a.peak → ∀ {column : Nat} {row : Bytes} {l : Level α}, body.head? = some row →
    a.levels[column]? = some l →
    (marked row column = true ↔ l.throughput = a.peak)
  /-- More throughput is never drawn shorter. -/
  ordered : ∀ {c d : Nat} {l m : Level α}, a.levels[c]? = some l → a.levels[d]? = some m →
    l.throughput ≤ m.throughput → barHeight body c ≤ barHeight body d

/-! ## Steps -/

variable {peak : α} {h k n : Nat} {l m : Level α}

theorem reaches_iff : reaches peak n h l = true ↔ 0 < peak ∧ threshold peak n h ≤ l.throughput := by
  simp [reaches]

section Monotone

open MonotoneArithmetic

variable [MonotoneArithmetic α]

/-- A level that `reaches` a step reaches the steps below it. The lower step is a smaller share of
the peak, and stays so when it is rounded. -/
theorem reaches_below (hreaches : reaches peak n k l = true) (hh : 0 < h) (hk : h ≤ k) (hn : k ≤ n)
    (hmost : n < 2 ^ 31) : reaches peak n h l = true := by
  obtain ⟨hpeak, hle⟩ := reaches_iff.mp hreaches
  have hstep : threshold peak n h ≤ threshold peak n k :=
    mul_le_mul (share_pos hh (hk.trans hn) hmost) (share_le_share hh hk hn hmost) hpeak
  exact reaches_iff.mpr ⟨hpeak, le_trans hstep hle⟩

/-- A level with more throughput `reaches` every step that one with less does. -/
theorem reaches_of_le (hreaches : reaches peak n h l = true) (hle : l.throughput ≤ m.throughput) :
    reaches peak n h m = true := by
  obtain ⟨hpeak, hthreshold⟩ := reaches_iff.mp hreaches
  exact reaches_iff.mpr ⟨hpeak, le_trans hthreshold hle⟩

/-- The last step is the peak itself: the share `n / n` is one, and nothing is lost by multiplying
with it. -/
theorem reaches_last_iff (hpeak : 0 < peak) (hle : l.throughput ≤ peak) (hn : 0 < n)
    (hmost : n < 2 ^ 31) :
    reaches peak n n l = true ↔ l.throughput = peak := by
  have hlast : threshold peak n n = peak := whole_mul hn hmost hpeak
  rw [reaches_iff, hlast]
  refine ⟨fun ⟨_, hge⟩ => (le_antisymm hpeak hge hle).symm, fun heq => ⟨hpeak, ?_⟩⟩
  rw [heq]
  exact le_self (le_of_lt hpeak)

theorem not_reaches_of_zero (hpeak : peak = 0) : reaches peak n h l = false := by
  refine Bool.eq_false_iff.mpr fun hreaches => ?_
  obtain ⟨hpos, -⟩ := reaches_iff.mp hreaches
  rw [hpeak] at hpos
  exact lt_irrefl _ hpos

omit [DecidableLE α] in
/-- The highest of some throughputs is not below where the search started, nor below any of them. -/
theorem le_foldl_highest {levels : List (Level α)} {best : α} (hbest : 0 ≤ best)
    (hnonneg : ∀ l ∈ levels, 0 ≤ l.throughput) :
    let highest := levels.foldl (fun best l => if best < l.throughput then l.throughput else best)
      best
    best ≤ highest ∧ ∀ l ∈ levels, l.throughput ≤ highest := by
  induction levels generalizing best with
  | nil => exact ⟨le_self hbest, nofun⟩
  | cons first rest ih =>
    obtain ⟨hfirst, hrest⟩ := List.forall_mem_cons.mp hnonneg
    rw [List.foldl_cons]
    -- either way the best one so far is above the old one and above the first level
    split
    · next hlt =>
      obtain ⟨hle, hall⟩ := ih hfirst hrest
      exact ⟨le_trans (le_of_lt hlt) hle, List.forall_mem_cons.mpr ⟨hle, hall⟩⟩
    · next hlt =>
      obtain ⟨hle, hall⟩ := ih hbest hrest
      have hfirst : first.throughput ≤ best := (le_or_lt hfirst hbest).resolve_right hlt
      exact ⟨hle, List.forall_mem_cons.mpr ⟨le_trans hfirst hle, hall⟩⟩

omit [DecidableLE α] in
theorem le_peak {a : Analysis α} (hnonneg : ∀ l ∈ a.levels, 0 ≤ l.throughput) (hl : l ∈ a.levels) :
    l.throughput ≤ a.peak :=
  (le_foldl_highest zero_le_zero hnonneg).2 l hl

end Monotone

/-! ## Rows -/

variable {a : Analysis α}

theorem length_rows (n : Nat) : (rows n).length = n := by
  rw [rows, List.length_map, List.length_reverse, List.length_range]

theorem getElem?_rows {i : Nat} (hi : i < n) : (rows n)[i]? = some (n - i) := by
  have hindex : n - 1 - i < n := by omega
  rw [rows, List.getElem?_map, List.getElem?_reverse (by rwa [List.length_range]),
    List.length_range, List.getElem?_range hindex, Option.map_some]
  congr 1
  omega

theorem barRow_eq (a : Analysis α) (n h : Nat) : barRow a n h = label n h ++ 124 :: bars a n h := by
  rw [barRow, label, List.append_assoc, List.append_assoc]
  rfl

/-- A cell of `bars` consists of blanks, and of a mark where its level reaches the step of
the row. -/
theorem mem_bars {c : UInt8} (hc : c ∈ bars a n h) :
    c = 32 ∨ c = 35 ∧ ∃ l ∈ a.levels, reaches a.peak n h l = true := by
  obtain ⟨l, hl, hc⟩ := List.mem_flatMap.mp hc
  rcases List.mem_cons.mp hc with rfl | hc
  · exact .inl rfl
  rcases List.mem_cons.mp hc with rfl | hc
  · exact .inl rfl
  rw [List.mem_singleton] at hc
  split at hc
  · next hreaches => exact .inr ⟨hc, l, hl, hreaches⟩
  · exact .inl hc

theorem cells_barRow : cells (barRow a n h) = bars a n h := by
  rw [cells, barRow_eq, Bytes.cut?_append (bar_not_mem_label n h)]
  rfl

/-- A `barRow` has a mark in the columns of the levels that reach its step, and in no others. -/
theorem marked_barRow {column : Nat} :
    marked (barRow a n h) column = true ↔ ∃ l, a.levels[column]? = some l ∧
      reaches a.peak n h l = true := by
  have hcell := getElem?_cells a.levels (fun l => if reaches a.peak n h l then 35 else 32) column
  rw [marked, cells_barRow, bars, hcell, beq_iff_eq, Option.map_eq_some_iff]
  refine exists_congr fun l => and_congr_right fun _ => ?_
  split
  · next hreaches => exact ⟨fun _ => hreaches, fun _ => rfl⟩
  · next hreaches =>
    exact ⟨fun hmark => absurd hmark (by decide), fun hreaches' => absurd hreaches' hreaches⟩

theorem marked_barRow_of_level {column : Nat} (hl : a.levels[column]? = some l) :
    marked (barRow a n h) column = true ↔ reaches a.peak n h l = true := by
  rw [marked_barRow, hl]
  exact ⟨fun ⟨_, heq, hreaches⟩ => Option.some.inj heq ▸ hreaches, fun hreaches =>
    ⟨l, rfl, hreaches⟩⟩

/-! ## Lines -/

/-- A plot of some levels is a title, the rows, an axis and labels, each of them a line. -/
theorem plot_eq (hsome : a.levels ≠ []) (height : Int) :
    plot a height = (title :: (rows (max height 1).toNat).map (barRow a (max height 1).toNat) ++
      [axis a, columnLabels a]).flatMap (· ++ [10]) := by
  rw [plot, if_neg (by rwa [List.isEmpty_iff])]
  simp only [List.cons_append, List.flatMap_cons, List.flatMap_append, List.flatMap_map,
    List.flatMap_nil, List.append_nil, List.append_assoc]
  rfl

/-- A byte that is not in the title and stands neither for an axis nor around the bars (`isFrame`)
is in no line, unless it is a mark of a level. -/
theorem not_mem_lines {c : UInt8} (htitle : c ∉ title) (hframe : isFrame c = false)
    (haxis : c ≠ 124) (hmark : c = 35 → ∀ h, ∀ l ∈ a.levels, reaches a.peak n h l = false) :
    ∀ line ∈ title :: (rows n).map (barRow a n) ++ [axis a, columnLabels a], c ∉ line := by
  have hout : ¬isFrame c = true := Bool.eq_false_iff.mp hframe
  have hrow : ∀ h, c ∉ barRow a n h := by
    intro h hc
    rw [barRow_eq, List.mem_append, List.mem_cons] at hc
    rcases hc with hc | hc | hc
    · exact hout (isFrame_of_mem_label hc)
    · exact haxis hc
    · rcases mem_bars hc with rfl | ⟨hc, l, hl, hreaches⟩
      · exact hout (by decide)
      · exact Bool.eq_false_iff.mp (hmark hc h l hl) hreaches
  intro line hline
  rw [List.cons_append, List.mem_cons, List.mem_append, List.mem_map, List.mem_pair] at hline
  rcases hline with rfl | ⟨h, -, rfl⟩ | rfl | rfl
  · exact htitle
  · exact hrow h
  · exact fun hc => hout (isFrame_of_mem_axis hc)
  · exact fun hc => hout (isFrame_of_mem_columnLabels hc)

/-- The lines of a plot are found again by splitting it at the ends of lines. -/
theorem split_plot (hsome : a.levels ≠ []) (height : Int) :
    Bytes.split 10 (plot a height) =
      title :: ((rows (max height 1).toNat).map (barRow a (max height 1).toNat) ++
      [axis a, columnLabels a, []]) := by
  have hlines := not_mem_lines (a := a) (n := (max height 1).toNat) (c := 10) (by decide)
    (by decide) (by decide)
    (absurd · (by decide))
  rw [plot_eq hsome, Bytes.split_lines hlines, List.cons_append, List.cons_append,
    List.append_assoc]
  rfl

/-! ## Bars -/

/-- The rows of a plot are as `DrawsBars` says, for every height that a word of 32 bits can have. -/
theorem drawsBars [MonotoneArithmetic α] (hnonneg : ∀ l ∈ a.levels, 0 ≤ l.throughput) (hn : 0 < n)
    (hmost : n < 2 ^ 31) :
    DrawsBars a ((rows n).map (barRow a n)) where
  row_eq := by
    refine List.forall_mem_map.mpr fun h _ => ?_
    refine ⟨label n h, a.levels.map fun l => [32, 32, if reaches a.peak n h l then 35 else 32], ?_,
      ?_, ?_, ?_⟩
    · rw [barRow_eq, bars, List.flatMap_def]
    · exact bar_not_mem_label n h
    · exact List.length_map _
    · refine List.forall_mem_map.mpr fun l _ => ?_
      split
      · exact .inl rfl
      · exact .inr rfl
  solid := by
    intro i j column upper lower hij hupper hlower hmarked
    have hj : j < n := by
      have hlt := (List.getElem?_eq_some_iff.mp hlower).1
      rwa [List.length_map, length_rows] at hlt
    rw [List.getElem?_map, getElem?_rows (by omega), Option.map_some, Option.some.injEq]
      at hupper hlower
    subst hupper hlower
    -- a lower row stands for a smaller step
    obtain ⟨l, hl, hreaches⟩ := marked_barRow.mp hmarked
    exact marked_barRow.mpr ⟨l, hl, reaches_below hreaches (by omega) (by omega) (by omega) hmost⟩
  top := by
    intro hpeak column row l hrow hl
    rw [List.head?_eq_getElem?, List.getElem?_map, getElem?_rows hn, Option.map_some,
      Option.some.injEq] at hrow
    subst hrow
    rw [marked_barRow_of_level hl]
    exact reaches_last_iff hpeak (le_peak hnonneg (List.mem_of_getElem? hl)) hn hmost
  ordered := by
    intro c d l m hl hm hle
    -- row by row, so it does not matter which rows there are
    refine List.countP_mono_left fun row hrow hmarked => ?_
    obtain ⟨h, -, rfl⟩ := List.mem_map.mp hrow
    exact (marked_barRow_of_level hm).mpr
      (reaches_of_le ((marked_barRow_of_level hl).mp hmarked) hle)

/-- **A plot draws solid bars.** Whatever the height, there are a title, as many rows, an axis and
labels, each of them a line; the rows are as `DrawsBars` says. A row has one cell for each level
behind its axis. Below a mark there are only marks. The levels at the peak, and no others, reach the
top; a level with more throughput than another is not drawn shorter. Without any throughput there
are no marks. Of the arithmetic only `MonotoneArithmetic` is asked, which holds also when it is
rounded. -/
theorem plot_draws_bars [MonotoneArithmetic α] (hsome : a.levels ≠ [])
    (hnonneg : ∀ l ∈ a.levels, 0 ≤ l.throughput) {height : Int} (hheight : height < 2 ^ 31) :
    ∃ heading body foot labels, Bytes.split 10 (plot a height) =
      heading :: (body ++ [foot, labels, []]) ∧ (body.length : Int) = max height 1 ∧
      DrawsBars a body ∧ (a.peak = 0 → 35 ∉ plot a height) := by
  have hn : 0 < (max height 1).toNat := by omega
  have hmost : (max height 1).toNat < 2 ^ 31 := by omega
  refine ⟨_, _, _, _, split_plot hsome height, ?_, drawsBars hnonneg hn hmost, fun hpeak hmem => ?_⟩
  · rw [List.length_map, length_rows]
    omega
  · rw [plot_eq hsome] at hmem
    obtain ⟨line, hline, hmem⟩ := List.mem_flatMap.mp hmem
    have hnot := not_mem_lines (c := 35) (by decide) (by decide) (by decide) (fun _ h l _ =>
      not_reaches_of_zero hpeak)
      line hline
    rcases List.mem_append.mp hmem with hmem | hmem
    · exact hnot hmem
    · exact absurd (List.mem_singleton.mp hmem) (by decide)

end

/-- Throughput that rises, stays and collapses. -/
def sketch : Analysis Float where
  levels := [⟨1, 100.5, 9, 7, 100, 100, 1000⟩, ⟨2, 190.25, 9, 7, 190, 190, 1000⟩,
    ⟨4, 190.25, 9, 7, 190, 190, 1000⟩, ⟨8, 30.0, 9, 7, 30, 30, 1000⟩]
  optimal := 2
  cliff := some 8
  severity := 0.5
  complete := true
  failure := none

/-- Two columns reach the top of seven rows. -/
theorem plot_draws_bars_sketch :
    0 < sketch.peak ∧ ∃ heading body foot labels, Bytes.split 10 (plot sketch 7) =
      heading :: (body ++ [foot, labels, []]) ∧ body.length = 7 ∧
      barHeight body 3 ≤ barHeight body 0 ∧ barHeight body 1 = barHeight body 2 ∧
      ∀ top, body.head? = some top → marked top 1 = true ∧ marked top 2 = true ∧
      marked top 0 = false := by
  have hpeak : 0 < sketch.peak := by decide +kernel
  obtain ⟨heading, body, foot, labels, hsplit, hlength, hdraws, -⟩ :=
    plot_draws_bars (a := sketch) (by decide) (by decide +kernel) (show (7 : Int) < 2 ^ 31 by
      decide)
  refine ⟨hpeak, heading, body, foot, labels, hsplit, by omega, ?_, ?_, fun top htop =>
    ⟨?_, ?_, ?_⟩⟩
  · exact hdraws.ordered rfl rfl (by decide +kernel)
  · exact Nat.le_antisymm (hdraws.ordered rfl rfl (by decide +kernel))
      (hdraws.ordered rfl rfl (by decide +kernel))
  · exact (hdraws.top hpeak htop rfl).mpr (by decide +kernel)
  · exact (hdraws.top hpeak htop rfl).mpr (by decide +kernel)
  · exact Bool.eq_false_iff.mpr (mt (hdraws.top hpeak htop rfl).mp (by decide +kernel))

end Report

end Headroom
