import Headroom.Profile.Level

/-!
# A plot of throughput

One column for each level, one row for each step of the height. A column is filled up to the highest
step that its throughput reaches.
-/

namespace Headroom.Report

open Profile

/-- Step `h` of `height` in percent. The product is a word of 32 bits with a sign: from a height of
21474837 on it wraps for the highest steps. -/
def percentage (height h : Nat) : Int := (h.toInt32 * 100 / height.toInt32).toInt

theorem percentage_of_lt {height h : Nat} (hh : h ≤ height) (hheight : height < 21474837) :
    percentage height h = (h * 100 / height : Nat) := by
  have hstep : h.toInt32.toInt = h := Int32.toInt_ofNat_of_lt (by omega)
  have hwhole : height.toInt32.toInt = height := Int32.toInt_ofNat_of_lt (by omega)
  have hproduct : (h.toInt32 * 100).toInt = h * 100 := by
    rw [Int32.toInt_mul, hstep, show (100 : Int32).toInt = 100 from rfl]
    exact Int.bmod_eq_of_le (by omega) (by omega)
  have hquotient : (h * 100 : Int).tdiv height = (h * 100 / height : Nat) := by
    rw [Int.tdiv_eq_ediv_of_nonneg (by omega)]
    rfl
  have hmost : h * 100 / height ≤ h * 100 := Nat.div_le_self _ _
  rw [percentage, Int32.toInt_div, hproduct, hwhole, hquotient]
  generalize h * 100 / height = share at hmost ⊢
  exact Int.bmod_eq_of_le (by omega) (by omega)

section
variable {α : Type} [NatCast α] [OfNat α 0] [Mul α] [Div α] [LT α] [LE α] [DecidableLT α]
  [DecidableLE α]

/-- The throughput that step `h` of `height` stands for. -/
def threshold (peak : α) (height h : Nat) : α := ((h : α) / (height : α)) * peak

/-- Whether a level reaches a step. Nothing does when there is no throughput at all. -/
def reaches (peak : α) (height h : Nat) (l : Level α) : Bool :=
  0 < peak && threshold peak height h ≤ l.throughput

/-- The cells of a row. -/
def bars (a : Analysis α) (height h : Nat) : Bytes :=
  a.levels.flatMap fun l => [32, 32, if reaches a.peak height h l then 35 else 32]

/-- A row with the share of the peak that it stands for. -/
def barRow (a : Analysis α) (height h : Nat) : Bytes :=
  Bytes.padLeft 5 (Bytes.ofInt (percentage height h)) ++ text "% |" ++ bars a height h

/-- The steps from the highest to the first. -/
def rows (height : Nat) : List Nat := (List.range height).reverse.map (· + 1)

/-- A plot of at least one row. -/
def plot (a : Analysis α) (height : Int) : Bytes :=
  if a.levels.isEmpty then text "No results to plot\n"
  else
    let height := (max height 1).toNat
    let line (s : Bytes) := s ++ [10]
    line (text "Throughput vs thread count")
      ++ (rows height).flatMap (fun h => line (barRow a height h))
      ++ line (text "       +" ++ List.replicate (a.levels.length * 3) 45)
      ++ line (text "        " ++ a.levels.flatMap fun l => Bytes.padLeft 3 (Bytes.ofInt l.threads))

end

/-- The height of a plot in a full report. -/
def plotHeight : Int := 20

end Headroom.Report
