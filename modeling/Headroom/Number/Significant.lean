import Headroom.Number.Fixed

/-!
# Doubles with a number of significant digits

The value is rounded to the asked number of significant digits. It is written positionally when its
decimal exponent is at least -4 and below that number, with an exponent of at least two digits
otherwise, and zeros at the end of the fraction are left out.
-/

namespace Headroom.Significant

open Binary64

/-- The power of ten below a positive fraction: `10 ^ k ≤ num / den < 10 ^ (k + 1)`. -/
def decade (num den : Nat) : Int :=
  let guess : Int := (Bytes.ofNat num).length - (Bytes.ofNat den).length
  let (n, d) := if guess < 0 then (num * Nat.pow 10 (-guess).toNat, den)
    else (num, den * Nat.pow 10 guess.toNat)
  if n < d then guess - 1 else guess

/-- The fraction as `digits` significant digits and the decimal exponent of the first. -/
def select (digits num den : Nat) : Nat × Int :=
  let e := decade num den
  let shift := (digits : Int) - 1 - e
  let n := roundDiv (num * Nat.pow 10 shift.toNat) (den * Nat.pow 10 (-shift).toNat)
  if n == Nat.pow 10 digits then (Nat.pow 10 (digits - 1), e + 1) else (n, e)

/-- Digits without the zeros at their end. -/
def dropZeros (ds : Bytes) : Bytes := (ds.reverse.dropWhile (· == 48)).reverse

/-- A point and the digits after it, or nothing when there are none. -/
def fraction (ds : Bytes) : Bytes := if ds.isEmpty then [] else 46 :: ds

/-- An exponent with its sign and at least two digits. -/
def exponentMark (e : Int) : Bytes :=
  let ds := Bytes.ofNat e.natAbs
  101 :: (if e < 0 then 45 else 43) :: (List.replicate (2 - ds.length) 48 ++ ds)

/-- A double with at most `digits` significant digits. -/
def render (digits : Nat) (x : Float) : Bytes :=
  match decode x with
  | .nan => text "nan"
  | .infinite negative => Fixed.signed negative (text "inf")
  | .finite negative 0 _ => Fixed.signed negative (text "0")
  | .finite negative mantissa exponent =>
    let (num, den) := scale mantissa 1 exponent
    let (n, e) := select digits num den
    let ds := Bytes.ofNat n
    Fixed.signed negative <|
      if e < -4 || digits ≤ e then
        ds.take 1 ++ fraction (dropZeros (ds.drop 1)) ++ exponentMark e
      else if e < 0 then
        48 :: fraction (dropZeros (List.replicate (-e - 1).toNat 48 ++ ds))
      else
        ds.take (e.toNat + 1) ++ fraction (dropZeros (ds.drop (e.toNat + 1)))

end Headroom.Significant
