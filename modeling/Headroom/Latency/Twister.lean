/-!
# A random generator

The 64-bit Mersenne twister: 312 words of state, which are stirred together whenever all of them
have been given out.
-/

namespace Headroom

structure Twister where
  words : Array UInt64
  /-- Words of the state that have been given out. -/
  used : Nat

namespace Twister

/-- Words of state. -/
def size : Nat := 312

/-- Each word is stirred with the word this far ahead. -/
def shift : Nat := 156

/-- The first state for a seed. -/
def ofSeed (seed : UInt64) : Twister :=
  let next (i : Nat) (x : UInt64) : UInt64 :=
    (6364136223846793005 : UInt64) * (x ^^^ (x >>> 62)) + i.toUInt64
  let words :=
    (List.range (size - 1)).foldl (fun ws i => ws.push (next (i + 1) (ws.getD i 0))) #[seed]
  ⟨words, size⟩

/-- The upper bits of one word with the lower bits of its neighbour, multiplied by the matrix of the
twister. -/
def twist (upper lower : UInt64) : UInt64 :=
  let y := (upper &&& 0xFFFFFFFF80000000) ||| (lower &&& 0x7FFFFFFF)
  (y >>> 1) ^^^ (if y &&& 1 == 0 then 0 else 0xB5026F5AA96619E9)

/-- A fresh state; each word uses those that were stirred before it. -/
def stir (words : Array UInt64) : Array UInt64 :=
  (List.range size).foldl (fun ws i =>
    ws.setIfInBounds i (ws.getD ((i + shift) % size) 0 ^^^ twist (ws.getD i 0)
      (ws.getD ((i + 1) % size) 0))) words

/-- The output for a word of the state. -/
def temper (x : UInt64) : UInt64 :=
  let x := x ^^^ ((x >>> 29) &&& 0x5555555555555555)
  let x := x ^^^ ((x <<< 17) &&& 0x71D67FFFEDA60000)
  let x := x ^^^ ((x <<< 37) &&& 0xFFF7EEE000000000)
  x ^^^ (x >>> 43)

/-- The next number, and the generator after it. -/
def next (g : Twister) : UInt64 × Twister :=
  let g := if size ≤ g.used then ⟨stir g.words, 0⟩ else g
  (temper (g.words.getD g.used 0), ⟨g.words, g.used + 1⟩)

/-- Draws until the lower half of the product with the bound is not below the limit; the upper half
is then evenly distributed. -/
def draw (bound limit : Nat) : Nat → Twister → Nat × Twister
  | 0, g => (0, g)
  | fuel + 1, g =>
    let (x, g) := g.next
    let product := x.toNat * bound
    if product % UInt64.size < limit then draw bound limit fuel g else (product / UInt64.size, g)

/-- An evenly distributed number below a bound. A draw is repeated only in a fraction `bound / 2 ^
64` of all cases, so the allowance for repeats is never used up. -/
def below (bound : Nat) (g : Twister) : Nat × Twister :=
  draw bound ((UInt64.size - bound) % bound) 1000 g

end Twister

end Headroom
