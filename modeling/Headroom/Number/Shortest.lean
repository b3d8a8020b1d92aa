import Headroom.Number.Significant

/-!
# The shortest text of a double

Among the decimals that read back as the same double the one with the fewest digits is taken, and of
those the nearest. Positional and scientific notation are compared, the shorter one is written, and
the positional one when both are equally long. An integer in positional notation shows its exact
digits.
-/

namespace Headroom.Shortest

open Binary64

/-- The reals that round to `mantissa * 2 ^ exponent`, in units of `2 ^ (exponent - 2)`. The gap
below a power of two is half of the gap above it. The ends belong to the interval when the mantissa
is even. -/
structure Interval where
  lower : Nat
  value : Nat
  upper : Nat
  closed : Bool
deriving Repr

def interval (mantissa : Nat) (exponent : Int) : Interval :=
  let tight := mantissa == Nat.pow 2 52 && exponent != leastExponent
  { lower := 4 * mantissa - (if tight then 1 else 2)
    value := 4 * mantissa
    upper := 4 * mantissa + 2
    closed := mantissa % 2 == 0 }

/-- Whether the fraction `n / d` lies in the interval. -/
def Interval.holds (i : Interval) (n d : Nat) : Bool :=
  if i.closed then i.lower * d ≤ n && n ≤ i.upper * d else i.lower * d < n && n < i.upper * d

/-- The multiple of `10 ^ k` that reads back and is nearest to the value, a tie going to the even
one. The value is `i.value * 2 ^ q`. -/
def onGrid (i : Interval) (q k : Int) : Option Nat :=
  -- one step of the grid, in units of `2 ^ q`, is `step / unit`
  let step := Nat.pow 10 k.toNat * Nat.pow 2 (-q).toNat
  let unit := Nat.pow 10 (-k).toNat * Nat.pow 2 q.toNat
  let floor := i.value * unit / step
  let below := i.holds (floor * step) unit && floor != 0
  let above := i.holds ((floor + 1) * step) unit
  match below, above with
  | true, true => some (roundDiv (i.value * unit) step)
  | true, false => some floor
  | false, true => some (floor + 1)
  | false, false => none

/-- Coarser grids first: the digits and the decimal exponent of the last of them. -/
def search (i : Interval) (q k : Int) : Nat → Nat × Int
  | 0 => (i.value, 0)
  | fuel + 1 =>
    match onGrid i q k with
    | some n => (n, k)
    | none => search i q (k - 1) fuel

/-- The shortest digits of a positive double and the decimal exponent of the last digit. -/
def select (mantissa : Nat) (exponent : Int) : Nat × Int :=
  let (num, den) := scale mantissa 1 exponent
  search (interval mantissa exponent) (exponent - 2) (Significant.decade num den + 1) 20

/-- Digits times a power of ten, written out. -/
def positional (ds : Bytes) (e : Int) : Bytes :=
  let point : Int := ds.length + e
  if 0 ≤ e then ds ++ List.replicate e.toNat 48
  else if 0 < point then ds.take point.toNat ++ 46 :: ds.drop point.toNat
  else text "0." ++ List.replicate (-point).toNat 48 ++ ds

/-- Digits times a power of ten, with one digit before the point and an exponent. -/
def scientific (ds : Bytes) (e : Int) : Bytes :=
  ds.take 1 ++ Significant.fraction (ds.drop 1) ++ Significant.exponentMark (ds.length + e - 1)

/-- A double by its shortest digits. -/
def render (x : Float) : Bytes :=
  match decode x with
  | .nan => text "nan"
  | .infinite negative => Fixed.signed negative (text "inf")
  | .finite negative 0 _ => Fixed.signed negative (text "0")
  | .finite negative mantissa exponent =>
    let (n, e) := select mantissa exponent
    let ds := Bytes.ofNat n
    let wide := positional ds e
    let short := scientific ds e
    Fixed.signed negative <|
      if short.length < wide.length then short
      else if 0 ≤ e then Fixed.layout 0 (Fixed.units 0 mantissa exponent)
      else wide

end Headroom.Shortest
