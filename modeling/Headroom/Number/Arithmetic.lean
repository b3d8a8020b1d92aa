/-!
# Arithmetic on measured quantities

Rates, ratios and weights are computed with doubles. The rules that compute them are stated for
every type with the operations they use, so that the same rule can be read with exact fractions.
-/

namespace Headroom

/-- Counts as doubles, each rounded to the nearest one. -/
instance natCastFloat : NatCast Float := ⟨Float.ofNat⟩

/-- The nearest number in the range from `lo` to `hi`. What compares with neither end stays as it
is. -/
def clamp {α : Type} [LT α] [DecidableLT α] (lo hi x : α) : α :=
  if x < lo then lo else if hi < x then hi else x

/-- Milliseconds in nanoseconds, as a word of 64 bits with a sign has them: from 9223372036854775808
nanoseconds on, which is `2 ^ 63`, they wrap. -/
def ofMilliseconds (ms : Int) : Int := (ms.toInt64 * 1000000).toInt

theorem ofMilliseconds_lt (ms : Int) : ofMilliseconds ms < 9223372036854775808 := by
  have hword := Int64.toInt_lt (ms.toInt64 * 1000000)
  unfold ofMilliseconds
  omega

theorem ofMilliseconds_of_lt {ms : Int} (hnonneg : 0 ≤ ms)
    (hlt : ms * 1000000 < 9223372036854775808) :
    ofMilliseconds ms = ms * 1000000 := by
  have hword : ms.toInt64.toInt = ms := Int64.toInt_ofInt_of_le (by omega) (by omega)
  rw [ofMilliseconds, Int64.toInt_mul, hword, show (1000000 : Int64).toInt = 1000000 from rfl]
  exact Int.bmod_eq_of_le (by omega) (by omega)

end Headroom
