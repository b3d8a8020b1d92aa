import Headroom.Bytes

/-!
# Clock ticks of a thread

The process file system describes a thread in one line: a number, the name in round brackets, and
further fields. The name may hold anything, brackets and blanks too, so the fields are counted from
the last closing bracket. The twelfth and thirteenth field after it are the ticks spent in the
program and in the system.
-/

namespace Headroom

structure Ticks where
  user : UInt64
  system : UInt64
deriving Repr, DecidableEq

namespace Ticks

/-- All ticks together, modulo the size of the counter. -/
def total (t : Ticks) : UInt64 := t.user + t.system

/-- What follows the last occurrence of a byte. -/
def afterLast? (sep : UInt8) (s : Bytes) : Option Bytes :=
  if s.contains sep then some (s.reverse.takeWhile (· != sep)).reverse else none

/-- A counter as it is written. One that is too large stands at the top of the range, and a negative
one counts down from zero. -/
def counter? (s : Bytes) : Option UInt64 :=
  let s := Bytes.untilNul s
  let (negative, ds) := match s with
    | 45 :: ds => (true, ds)
    | 43 :: ds => (false, ds)
    | ds => (false, ds)
  if ds.isEmpty || !ds.all Bytes.isDigit then none
  else
    let n := Bytes.digitsValue ds
    if UInt64.size ≤ n then some (-1) else some (if negative then -n.toUInt64 else n.toUInt64)

/-- The ticks in a thread's line. -/
def ofStat? (stat : Bytes) : Option Ticks := do
  let fields := Bytes.words (← afterLast? 41 stat)
  let user ← counter? (← fields[11]?)
  let system ← counter? (← fields[12]?)
  some ⟨user, system⟩

/-- The time of a number of ticks at a rate per second, in nanoseconds. Whole seconds are converted
apart from the rest, so that no product leaves the range of a word. -/
def nanoseconds (rate ticks : UInt64) : Int :=
  let whole := ticks / rate
  let part := ticks % rate
  (whole.toInt64 * 1000000000 + (part * 1000000000 / rate).toInt64).toInt

end Ticks

end Headroom
