import Headroom.Fault
import Headroom.Sampling.Sample

/-!
# The window of recent samples

A window keeps the last samples that were recorded, up to its capacity, in slots that are
overwritten in turn. A sample without a positive duration is not kept but counted.
-/

namespace Headroom

structure Window.Config where
  capacity : Nat := 200
  /-- Fewer samples than this make no estimate. -/
  minSamples : Nat := 5
  /-- Older samples are left out of the estimate; 0 leaves out none. -/
  maxAgeMs : Int := 5000

def Window.Config.problem? (c : Window.Config) : Option Problem :=
  if c.capacity < 1 then some .windowCapacity
  else if c.minSamples < 1 then some .windowNoSamples
  else if c.capacity < c.minSamples then some .windowTooManySamples
  else if c.maxAgeMs < 0 then some .windowAge
  else none

structure Window where
  config : Window.Config
  slots : Array Sample
  /-- The slot that the next sample goes to. -/
  next : Nat
  discarded : Nat
  unmeasured : Nat

namespace Window

def empty (config : Config) : Window := ⟨config, #[], 0, 0, 0⟩

/-- An empty window, if its configuration is usable. -/
def ofConfig (config : Config) : Except Problem Window :=
  match config.problem? with
  | some p => .error p
  | none => .ok (empty config)

/-- How many samples the window holds. -/
def size (w : Window) : Nat := w.slots.size

def record (w : Window) (s : Sample) : Window :=
  if s.wall ≤ 0 then { w with discarded := w.discarded + 1 }
  else
    { w with
      slots := if w.slots.size < w.config.capacity then w.slots.push s
        else w.slots.setIfInBounds w.next s
      next := (w.next + 1) % w.config.capacity
      unmeasured := if s.measured then w.unmeasured else w.unmeasured + 1 }

/-- Forgets the samples, but not the counts. -/
def reset (w : Window) : Window := { w with slots := #[], next := 0 }

/-- The greatest age that takes part in an estimate, in nanoseconds. The product is one of words of
64 bits with a sign. -/
def Config.ageLimit (c : Config) : Int := ofMilliseconds c.maxAgeMs

/-- Whether a sample takes part in an estimate: its computing time was measured, and it is not too
old. -/
def counts (w : Window) (now : Int) (s : Sample) : Bool :=
  s.measured && (w.config.maxAgeMs ≤ 0 || now - s.finishedAt ≤ w.config.ageLimit)

/-- The estimate at a moment. -/
def estimate (w : Window) (now : Int) : Estimate Float :=
  Estimate.ofSamples w.config.minSamples (w.slots.toList.filter (w.counts now))

end Window

end Headroom
