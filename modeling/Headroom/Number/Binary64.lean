import Headroom.Bytes

/-!
# Double-precision numbers as exact values

A finite double is an integer times a power of two. `Binary64.decode` takes a double apart into that
integer and that power, so that printing is exact arithmetic on `Nat`; `Binary64.round` goes the
other way and finds the double nearest to a fraction, a half going to the even neighbour.
-/

namespace Headroom.Binary64

/-- A double taken apart. The finite value is `mantissa * 2 ^ exponent` with the sign in front. -/
inductive Shape
  | nan
  | infinite (negative : Bool)
  | finite (negative : Bool) (mantissa : Nat) (exponent : Int)
deriving Repr, DecidableEq

/-- The exponent of the smallest positive double. -/
def leastExponent : Int := -1074

def decode (x : Float) : Shape :=
  let bits := x.toBits.toNat
  let negative := bits / Nat.pow 2 63 == 1
  let biased : Nat := bits / Nat.pow 2 52 % Nat.pow 2 11
  let fraction := bits % Nat.pow 2 52
  if biased == 2047 then
    if fraction == 0 then .infinite negative else .nan
  else if biased == 0 then .finite negative fraction leastExponent
  else .finite negative (Nat.pow 2 52 + fraction) ((biased : Int) + leastExponent - 1)

/-- The quotient rounded to the nearest integer, a half going to the even one. -/
def roundDiv (num den : Nat) : Nat :=
  let q := num / den
  let r := num % den
  if 2 * r < den then q
  else if den < 2 * r then q + 1
  else q + q % 2

/-- A fraction rounded to a double. -/
structure Rounded where
  /-- Multiple of the unit that was chosen. -/
  mantissa : Nat
  /-- The unit is two to this power. -/
  exponent : Int
  exact : Bool
deriving Repr

/-- The fraction `num / den` scaled by a power of two. -/
def scale (num den : Nat) (exponent : Int) : Nat × Nat :=
  (num * Nat.pow 2 exponent.toNat, den * Nat.pow 2 (-exponent).toNat)

/-- The power of two below a positive fraction: `2 ^ k ≤ num / den < 2 ^ (k + 1)`. -/
def magnitude (num den : Nat) : Int :=
  let guess : Int := num.log2 - den.log2
  let (n, d) := scale num den (-guess)
  if n < d then guess - 1 else guess

/-- The double nearest to a fraction, without a bound above: a unit of `2 ^ (magnitude - 52)`, but
none below the smallest double. -/
def round (num den : Nat) : Rounded :=
  if num == 0 then ⟨0, leastExponent, true⟩
  else
    let exponent := max (magnitude num den - 52) leastExponent
    let (n, d) := scale num den (-exponent)
    ⟨roundDiv n d, exponent, n % d == 0⟩

/-- A rounded value is beyond the largest double. -/
def Rounded.overflows (r : Rounded) : Bool :=
  971 < r.exponent || (r.exponent == 971 && r.mantissa == Nat.pow 2 53)

/-- A fraction of at most this size stays below the normal range also when it is first rounded to 53
bits. -/
def belowNormal (num den : Nat) : Bool :=
  let (n, d) := scale num den 1076
  n < d * (Nat.pow 2 54 - 1)

/-- The double with the given sign, mantissa and exponent; the mantissa is at most `2 ^ 53`. -/
def encode (negative : Bool) (r : Rounded) : Float :=
  let sign := if negative then Nat.pow 2 63 else 0
  let magnitude :=
    if r.overflows then 2047 * Nat.pow 2 52
    else if r.mantissa < Nat.pow 2 52 then r.mantissa
    else (r.exponent - leastExponent).toNat * Nat.pow 2 52 + r.mantissa
  Float.ofBits (sign + magnitude).toUInt64

end Headroom.Binary64
