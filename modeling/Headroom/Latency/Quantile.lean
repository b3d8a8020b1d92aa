import Headroom.Latency.Reservoir
import Headroom.Number.Arithmetic

/-!
# Quantiles of several reservoirs

A value that a reservoir keeps stands for all values that were put into it in equal parts. The
quantile is the smallest kept value up to which more than the asked share of all values lies.
-/

namespace Headroom.Quantile

variable {α : Type} [NatCast α] [Add α] [Mul α] [Div α] [LT α] [DecidableLT α]

/-- How many values each kept one stands for. -/
def weight (k : Kept) : α := (k.seen : α) / (k.values.size : α)

/-- The kept values with their weights. -/
def weighted (parts : List Kept) : List (Int × α) :=
  parts.flatMap fun k => k.values.toList.map fun v => (v, weight k)

/-- All values that were put in, those of an empty reservoir left out. -/
def total (parts : List Kept) : α :=
  (parts.filter fun k => !k.values.isEmpty).foldl (fun sum k => sum + (k.seen : α)) ((0 : Nat) : α)

/-- The first value at which the summed weights exceed the target, else the last one. -/
def reach (target : α) : (sum : α) → (last : Int) → List (Int × α) → Int
  | _, last, [] => last
  | sum, _, (v, w) :: rest =>
    let sum := sum + w
    if target < sum then v else reach target sum v rest

/-- The quantile `q` of what was put into the reservoirs, and 0 if nothing was. -/
def merged (parts : List Kept) (q : α) : Int :=
  let values := (weighted parts : List (Int × α)).mergeSort fun a b => a.1 ≤ b.1
  reach (q * total parts) ((0 : Nat) : α) 0 values

end Headroom.Quantile
