import Headroom.Number.Binary64

/-!
# Doubles with a fixed number of places

The exact value of the double is rounded to the asked number of places, a half going to the even
last digit. Infinities are written `inf`, and a value that is no number `nan`.
-/

namespace Headroom.Fixed

open Binary64

/-- The integer nearest to `mantissa * 2 ^ exponent * 10 ^ places`. -/
def units (places mantissa : Nat) (exponent : Int) : Nat :=
  let (n, d) := scale (mantissa * Nat.pow 10 places) 1 exponent
  roundDiv n d

/-- A count of units of `10 ^ (-places)` in positional notation. -/
def layout (places n : Nat) : Bytes :=
  let digits := Bytes.ofNat n
  let digits := List.replicate (places + 1 - digits.length) 48 ++ digits
  let whole := digits.take (digits.length - places)
  if places == 0 then whole else whole ++ 46 :: digits.drop (digits.length - places)

def signed (negative : Bool) (s : Bytes) : Bytes := if negative then 45 :: s else s

/-- A double with `places` digits after the point. -/
def render (places : Nat) (x : Float) : Bytes :=
  match decode x with
  | .nan => text "nan"
  | .infinite negative => signed negative (text "inf")
  | .finite negative mantissa exponent =>
    signed negative (layout places (units places mantissa exponent))

end Headroom.Fixed
