import Headroom.Log
import Headroom.Fault
import Headroom.Sampling.Sample

/-!
# The veto

Whether a batch is worth running in parallel. The first rule that speaks against it wins: too few
items, too little speedup expected, a known cliff within the intended threads, and workers that
contend already.
-/

namespace Headroom.Veto

/-- What speaks against a batch. -/
inductive Reason
  | none | notEnoughItems | lowSpeedup | cliffDetected | contentionLow
deriving Repr, DecidableEq

def Reason.name : Reason → Bytes
  | none => text "NONE"
  | notEnoughItems => text "NOT_ENOUGH_ITEMS"
  | lowSpeedup => text "LOW_ESTIMATED_SPEEDUP"
  | cliffDetected => text "CLIFF_DETECTED"
  | contentionLow => text "CONTENTION_ALREADY_LOW"

/-- Reasons by number. -/
def Reason.ofCode? : Int → Option Reason
  | 0 => some none
  | 1 => some notEnoughItems
  | 2 => some lowSpeedup
  | 3 => some cliffDetected
  | 4 => some contentionLow
  | _ => Option.none

structure Policy (α : Type) where
  minItems : Nat
  minSpeedup : α
  /-- The blocking ratio from which on workers contend; the rule is off without it. -/
  contentionBeta : Option α

/-- The policy in force when nothing is configured. -/
def Policy.default : Policy Float := ⟨100, 1.1, .none⟩

/-- The first thing that makes a policy unusable. -/
def Policy.problem? (p : Policy Float) : Option Problem :=
  if ¬ 0.0 < p.minSpeedup then some (.minSpeedup p.minSpeedup)
  else p.contentionBeta.bind fun b => if 0.0 < b ∧ b ≤ 1.0 then .none else some (.contentionBeta b)

structure Decision (α : Type) where
  approved : Bool
  reason : Reason
  items : Nat
  /-- The blocking ratio at the time of the decision. -/
  beta : α

section
variable {α : Type} [LT α] [LE α] [DecidableLT α] [DecidableLE α]

/-- Whether a cliff is known that the intended threads reach. A number of threads that is not
positive is unknown, and then every cliff is in reach. -/
def cliffInReach (cliff : Option Int) (threads : Int) : Bool :=
  cliff.any fun c => threads ≤ 0 || c ≤ threads

/-- Whether workers contend already by a reading that can be relied on. -/
def contended (policy : Policy α) (beta : Estimate α) : Bool :=
  policy.contentionBeta.any fun limit => beta.sufficient && limit ≤ beta.beta

/-- The first rule that speaks against a batch. -/
def reasonFor (policy : Policy α) (items : Nat) (speedup : α) (beta : Estimate α)
    (cliff : Option Int) (threads : Int) : Reason :=
  if items < policy.minItems then .notEnoughItems
  else if speedup < policy.minSpeedup then .lowSpeedup
  else if cliffInReach cliff threads then .cliffDetected
  else if contended policy beta then .contentionLow
  else .none

def decide (policy : Policy α) (items : Nat) (speedup : α) (beta : Estimate α) (cliff : Option Int)
    (threads : Int) : Decision α :=
  let reason := reasonFor policy items speedup beta cliff threads
  { approved := reason = .none, reason, items, beta := beta.beta }

end

/-- A speedup to expect when nothing was measured: four, or the number of chunks that about a
hundred items each would make, if that is less. -/
def heuristicSpeedup {α : Type} [NatCast α] [Div α] [LT α] [DecidableLT α] (items : Nat) : α :=
  if items = 0 then ((0 : Nat) : α)
  else
    let tasks : α := (items : α)
    let one : α := ((1 : Nat) : α)
    let four : α := ((4 : Nat) : α)
    let chunk : α := ((items / 100 : Nat) : α)
    let chunk := if one < chunk then chunk else one
    let chunks := tasks / chunk
    if chunks < four then chunks else four

/-- A rejected batch is worth a line. -/
def Decision.entries {α : Type} (d : Decision α) : List Log.Entry :=
  if d.approved then []
  else [⟨.debug, text "veto", text "rejected " ++ Bytes.ofNat d.items ++ text " item(s): " ++
    d.reason.name⟩]

end Headroom.Veto
