import Headroom.Number.Binary64

/-!
# Reading numbers

Two notations are read. The plain one (`plainInt?`) is the strict one for environment variables: an
optional minus sign and the number, nothing else. The lenient one (`lenientInt?`) is for
configuration files: white space may come first, a plus sign is allowed, and fractions may be
hexadecimal. In both, the whole string has to be the number.
-/

namespace Headroom

/-- A fraction as it is written, before it is rounded to a double. -/
inductive Literal
  | nan
  | infinite (negative : Bool)
  /-- The digits times a power of ten. -/
  | decimal (negative : Bool) (digits : Nat) (exponent : Int)
  /-- The digits times a power of two. -/
  | binary (negative : Bool) (digits : Nat) (exponent : Int)
deriving Repr, DecidableEq

namespace Reader

/-- An optional sign: whether it is a minus, and the rest. -/
def sign (plus : Bool) : Bytes → Bool × Bytes
  | c :: rest => if c == 45 then (true, rest) else if plus && c == 43 then (false, rest)
      else (false, c :: rest)
  | [] => (false, [])

/-- An integer at the start of a string, and what follows it. -/
def leadingInt? (s : Bytes) : Option (Int × Bytes) :=
  let (negative, s) := sign true (Bytes.trimLeft s)
  let ds := s.takeWhile Bytes.isDigit
  if ds.isEmpty then none
  else
    let n : Int := Bytes.digitsValue ds
    some (if negative then -n else n, s.dropWhile Bytes.isDigit)

/-- The range of a 32-bit signed integer. -/
def fits32 (n : Int) : Bool := -2147483648 ≤ n && n < 2147483648

/-- An integer setting in a configuration file. -/
def lenientInt? (s : Bytes) : Option Int := do
  let (n, rest) ← leadingInt? s
  if rest.isEmpty && fits32 n then some n else none

/-- An integer setting in the environment. -/
def plainInt? (s : Bytes) : Option Int :=
  let (negative, ds) := sign false s
  if ds.isEmpty || !ds.all Bytes.isDigit then none
  else
    let n : Int := Bytes.digitsValue ds
    let n := if negative then -n else n
    if fits32 n then some n else none

/-- The value of a hexadecimal digit. -/
def hexValue? (c : UInt8) : Option Nat :=
  if Bytes.isDigit c then some (Bytes.digitValue c)
  else
    let c := Bytes.lowerByte c
    if 97 ≤ c && c ≤ 102 then some (c.toNat - 87) else none

def isHexDigit (c : UInt8) : Bool := (hexValue? c).isSome

def hexDigitsValue (ds : Bytes) : Nat := ds.foldl (fun n c => 16 * n + (hexValue? c).getD 0) 0

/-- The exponent that ends a fraction: nothing, or the mark, an optional sign and digits. -/
def exponent? (mark : UInt8) : Bytes → Option Int
  | [] => some 0
  | c :: rest =>
    let (negative, ds) := sign true rest
    if Bytes.lowerByte c != mark || ds.isEmpty || !ds.all Bytes.isDigit then none
    else
      let e : Int := Bytes.digitsValue ds
      some (if negative then -e else e)

/-- The digits before and after an optional point, and what follows them. At least one digit is
needed. -/
def mantissa? (digit : UInt8 → Bool) (s : Bytes) : Option (Bytes × Bytes × Bytes) :=
  let whole := s.takeWhile digit
  let (frac, rest) := match s.dropWhile digit with
    | 46 :: rest => (rest.takeWhile digit, rest.dropWhile digit)
    | rest => ([], rest)
  if whole.isEmpty && frac.isEmpty then none else some (whole, frac, rest)

def decimal? (negative : Bool) (s : Bytes) : Option Literal := do
  let (whole, frac, rest) ← mantissa? Bytes.isDigit s
  let e ← exponent? 101 rest
  some (.decimal negative (Bytes.digitsValue (whole ++ frac)) (e - frac.length))

def hexadecimal? (negative : Bool) (s : Bytes) : Option Literal := do
  let (whole, frac, rest) ← mantissa? isHexDigit s
  let e ← exponent? 112 rest
  some (.binary negative (hexDigitsValue (whole ++ frac)) (e - 4 * frac.length))

/-- The part in brackets that may follow `nan`: letters, digits and underscores. -/
def isPayload (s : Bytes) : Bool :=
  let isWord (c : UInt8) := isHexDigit c || (97 ≤ Bytes.lowerByte c && Bytes.lowerByte c ≤ 122) ||
    c == 95
  match s with
  | [] => true
  | 40 :: rest => rest.getLast? == some 41 && rest.dropLast.all isWord
  | _ => false

/-- The words for values that are not finite, in any case. -/
def special? (negative : Bool) (s : Bytes) : Option Literal :=
  let w := Bytes.lower s
  if w == text "inf" || w == text "infinity" then some (.infinite negative)
  else if w.take 3 == text "nan" && isPayload (s.drop 3) then some .nan
  else none

/-- A fraction in the strict notation. -/
def plainLiteral? (s : Bytes) : Option Literal :=
  let (negative, s) := sign false s
  special? negative s <|> decimal? negative s

/-- A fraction in the lenient notation. -/
def lenientLiteral? (s : Bytes) : Option Literal :=
  let (negative, s) := sign true (Bytes.trimLeft s)
  match s with
  | 48 :: x :: rest =>
    if Bytes.lowerByte x == 120 then hexadecimal? negative rest else decimal? negative s
  | _ => special? negative s <|> decimal? negative s

/-- Exponents are held to a range far beyond every double, which keeps the powers small. -/
def hold (size : Nat) (exponent : Int) : Int :=
  let room : Int := size + 5000
  max (-room) (min room exponent)

/-- The exact value of a finite literal as a fraction. -/
def fraction (base digits : Nat) (exponent : Int) : Nat × Nat :=
  let e := hold (digits.log2 + 1) exponent
  (digits * Nat.pow base e.toNat, Nat.pow base (-e).toNat)

/-- The double for a literal, unless `refuse` rejects the rounding of its value. -/
def value? (refuse : Nat × Nat → Binary64.Rounded → Bool) (l : Literal) : Option Float :=
  let finite (negative : Bool) (f : Nat × Nat) :=
    let r := Binary64.round f.1 f.2
    if r.overflows || refuse f r then none else some (Binary64.encode negative r)
  match l with
  | .nan => some (0.0 / 0.0)
  | .infinite negative => some (if negative then -1.0 / 0.0 else 1.0 / 0.0)
  | .decimal negative digits exponent => finite negative (fraction 10 digits exponent)
  | .binary negative digits exponent => finite negative (fraction 2 digits exponent)

/-- A fraction in the environment. A number that is too large is refused, and one that vanishes. -/
def plainFloat? (s : Bytes) : Option Float := do
  value? (fun f r => f.1 != 0 && r.mantissa == 0) (← plainLiteral? s)

/-- A fraction in a configuration file. A number that is too large is refused, and one that is too
small to keep its precision. -/
def lenientFloat? (s : Bytes) : Option Float := do
  value? (fun f r => !r.exact && Binary64.belowNormal f.1 f.2) (← lenientLiteral? s)

end Reader

end Headroom
