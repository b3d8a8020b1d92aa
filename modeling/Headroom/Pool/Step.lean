import Headroom.Pool.Operation
import Headroom.Pool.Work

/-!
# Steps of a pool

All that can happen to a pool, one event after the other. An event that is not possible in a state
has no successor there. Callers, workers and the monitor may interleave in any order that
`Pool.step` allows. What needs the lock on the state waits until no snapshot is put together.
-/

namespace Headroom.Pool

/-- What a worker does next. The readings come from outside. -/
inductive Action
  | claim
  | begin (reading : Reading) (now : Int)
  | run
  | finish (reading : Reading) (now : Int)
  | count
  | countFailed
  | shut
  | yield
  | abandon
  | leave (now : Int)

inductive Event (α : Type)
  /-- A single submission takes the next index. -/
  | number
  | enqueue (index : Nat) (body : Result α)
  | start (launches : Nat → Bool) (monitor : Bool) (now : Int)
  | survey (now : Int)
  | look (launches : Nat → Bool)
  /-- One more count of the draft is read. -/
  | read
  | close (wait : Bool)
  | mark
  | collect
  | conclude (now : Int)
  | work (id : Nat) (action : Action)

variable {α : Type}

/-- Whether an event needs the lock that is held while a snapshot is put together. -/
def Event.locks : Event α → Bool
  | .start .. | .look _ | .mark | .collect | .conclude _ | .work _ .yield
  | .work _ (.leave _) => true
  | _ => false

/-- What an action of a worker leads to, if the worker stands where the action begins. -/
def work (id : Nat) (action : Action) (p : Pool α) : Option (Pool α) :=
  match p.stage? id, action with
  | some .free, .claim => if p.quiescent then none else some (p.claim id)
  | some (.claimed job), .begin reading now => some (p.begin id job reading now)
  | some (.running job watch), .run => some (p.run id job watch)
  | some (.ran job watch), .finish reading now => some (p.finish id job watch reading now)
  | some (.measured job), .count => some (p.count id job)
  | some (.counted _), .countFailed => some (p.countFailed id)
  | some (.broken job what), .shut => some (p.shut id job what)
  | some (.closing job what), .yield => some (p.yield id job what)
  | some (.abandoning job what), .abandon => some (p.abandon id job what)
  | some .leaving, .leave now => some (p.leave id now)
  | _, _ => none

/-- What an event leads to, if the lock is free or not needed. A shutdown forgets the workers and
publishes the last snapshot only when the monitor has ended its look. -/
def happen (p : Pool α) : Event α → Option (Pool α)
  | .number => some { p with submitted := p.submitted + 1 }
  | .enqueue index body => if p.accepting && !p.full then some (p.enqueue index body) else none
  | .start launches monitor now => some (p.start launches monitor now).1
  | .survey now => if p.looking.isSome then none else some (p.survey now)
  | .look launches => p.looking.map fun l => p.look launches l
  | .read => p.draft.map fun d => p.read d
  | .close wait => some (p.close wait)
  | .mark => some p.mark
  | .collect => if p.live = 0 && p.looking.isNone then some p.collect else none
  | .conclude now => if p.looking.isNone then some (p.conclude now) else none
  | .work id action => p.work id action

/-- The state after an event. -/
def step (p : Pool α) (e : Event α) : Option (Pool α) :=
  if e.locks && p.draft.isSome then none else p.happen e

/-- The state after several events, each of which has to be possible. -/
def steps (p : Pool α) : List (Event α) → Option (Pool α)
  | [] => some p
  | e :: rest => (p.step e).bind fun q => q.steps rest

end Headroom.Pool
