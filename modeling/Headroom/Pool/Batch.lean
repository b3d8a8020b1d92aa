import Headroom.Pool.State

/-!
# Batches

A batch applies a function to every item of a list. In the pool each item is a job, and the results
are gathered in the order of the items; without the pool the items are done one after the other.
Either way a failed item is known by its position.
-/

namespace Headroom.Pool

variable {α β : Type}

/-- The position and the fault of an item whose function failed. Other faults concern the whole
pool. -/
def itemFailure? : Result α → Option (Nat × Fault)
  | .error (.task index cause) => some (index, cause)
  | _ => none

/-- A fault that concerns the whole pool. -/
def poolFault? : Result α → Option Fault
  | .ok _ => none
  | .error (.task ..) => none
  | .error f => some f

/-- The values in order, or the first fault. -/
def firstFault : List (Result α) → Result (List α)
  | [] => .ok []
  | .ok v :: rest => (firstFault rest).map (v :: ·)
  | .error f :: _ => .error f

/-- The values in order. A fault of the pool goes before the failures of items, which are reported
together. -/
def allFailures (results : List (Result α)) : Result (List α) :=
  match results.findSome? poolFault?, results.filterMap itemFailure? with
  | some f, _ => .error f
  | none, [] => .ok (results.filterMap Except.toOption)
  | none, failures => .error (.batch failures results.length)

/-- The results of a batch in the pool. -/
def gather (policy : FailurePolicy) (results : List (Result α)) : Result (List α) :=
  if policy = .raiseOnFirst then firstFault results else allFailures results

/-- Items done one after the other from a position on: the values, and the failures if they are
collected. -/
def sequentialFrom (collect : Bool) (fn : β → Result α) :
    Nat → List β → Result (List α × List (Nat × Fault))
  | _, [] => .ok ([], [])
  | index, item :: rest =>
    match fn item with
    | .ok v => (sequentialFrom collect fn (index + 1) rest).map fun (vs, fs) => (v :: vs, fs)
    | .error f =>
      if collect then (sequentialFrom collect fn (index + 1) rest).map fun (vs, fs) =>
        (vs, (index, f) :: fs)
      else .error (.task index f)

/-- The results of a batch without the pool. -/
def sequential (policy : FailurePolicy) (fn : β → Result α) (items : List β) : Result (List α) :=
  match sequentialFrom (policy = .collectAll) fn 0 items with
  | .error f => .error f
  | .ok (vs, []) => .ok vs
  | .ok (_, failures) => .error (.batch failures items.length)

end Headroom.Pool
