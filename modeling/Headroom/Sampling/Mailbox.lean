import Headroom.Fault
import Headroom.Sampling.Sample

/-!
# The mailbox between workers and monitor

Workers put samples in, the monitor takes all of them out. A full mailbox refuses a sample and
counts it.
-/

namespace Headroom

structure Mailbox where
  capacity : Nat
  pending : List Sample
  dropped : Nat

namespace Mailbox

def empty (capacity : Nat) : Mailbox := ⟨capacity, [], 0⟩

/-- A mailbox of the given size, which has to have room for one sample. -/
def ofCapacity (capacity : Nat) : Except Problem Mailbox :=
  if capacity < 1 then .error .mailboxEmpty else .ok (empty capacity)

def full (m : Mailbox) : Bool := m.capacity ≤ m.pending.length

def push (m : Mailbox) (s : Sample) : Mailbox :=
  if m.full then { m with dropped := m.dropped + 1 } else { m with pending := m.pending ++ [s] }

/-- The pending samples in the order of their arrival, and the emptied mailbox. -/
def drain (m : Mailbox) : List Sample × Mailbox := (m.pending, { m with pending := [] })

end Mailbox

end Headroom
