import Headroom.Latency.Twister

/-!
# Reservoirs

A reservoir keeps a uniform sample of all values that are put into it, of at most a given size.
While there is room every value is kept. After that the `m`-th value comes with a pick below `m`,
and goes to the slot that the pick names, if there is one.
-/

namespace Headroom

/-- The values that are kept. The picks come from outside. -/
structure Kept where
  capacity : Nat
  /-- Values put in so far. -/
  seen : Nat
  values : Array Int

namespace Kept

/-- An empty reservoir; it has room for at least one value. -/
def ofCapacity (capacity : Nat) : Kept := ⟨max capacity 1, 0, #[]⟩

def full (k : Kept) : Bool := k.capacity ≤ k.values.size

def add (v : Int) (pick : Nat) (k : Kept) : Kept :=
  { k with
    seen := k.seen + 1
    values :=
      if k.full then (if pick < k.capacity then k.values.setIfInBounds pick v else k.values)
      else k.values.push v }

end Kept

structure Reservoir where
  kept : Kept
  generator : Twister

namespace Reservoir

/-- The seed of a reservoir that is given none. -/
def defaultSeed : UInt64 := 0x9e3779b97f4a7c15

def create (capacity : Nat) (seed : UInt64) : Reservoir := ⟨.ofCapacity capacity, .ofSeed seed⟩

/-- A value is put in. Nothing is drawn while there is room. -/
def add (v : Int) (r : Reservoir) : Reservoir :=
  if r.kept.full then
    let (pick, generator) := r.generator.below (r.kept.seen + 1)
    ⟨r.kept.add v pick, generator⟩
  else { r with kept := r.kept.add v 0 }

end Reservoir

end Headroom
