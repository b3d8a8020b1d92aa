import Headroom.Sampling.Window
import Headroom.Scaling

/-!
# Pool configuration
-/

namespace Headroom

/-- What a batch does about tasks that fail. -/
inductive FailurePolicy
  /-- The first failure ends the batch. -/
  | raiseOnFirst
  /-- All tasks are awaited, then the failures are reported together. -/
  | collectAll
  /-- A number that names neither. -/
  | unknown
deriving Repr, DecidableEq

def FailurePolicy.name : FailurePolicy → Bytes
  | raiseOnFirst => text "raise_on_first"
  | collectAll => text "collect_all"
  | unknown => text "unknown"

/-- Policies by number. -/
def FailurePolicy.ofCode : Int → FailurePolicy
  | 0 => raiseOnFirst
  | 1 => collectAll
  | _ => unknown

/-- Policies by name, in any case. -/
def FailurePolicy.ofName (s : Bytes) : Except Problem FailurePolicy :=
  let s := Bytes.lower s
  if [text "raise_on_first", text "raise", text "first"].contains s then .ok raiseOnFirst
  else if [text "collect_all", text "collect", text "all"].contains s then .ok collectAll
  else .error (.failurePolicy s)

structure Pool.Config where
  minWorkers : Int := 1
  maxWorkers : Int := 4
  blockingThreshold : Float := 0.3
  monitorIntervalMs : Int := 1000
  hysteresisTicks : Int := 3
  /-- Tasks that may wait; 0 sets no limit. -/
  queueCapacity : Nat := 0
  mailboxCapacity : Nat := 4096
  failurePolicy : FailurePolicy := .raiseOnFirst
  window : Window.Config := {}

namespace Pool.Config

/-- The first thing that makes the configuration unusable. -/
def problem? (c : Config) : Option Problem :=
  if c.minWorkers < 1 then some (.minWorkers c.minWorkers)
  else if c.maxWorkers < c.minWorkers then some (.maxWorkers c.maxWorkers c.minWorkers)
  else if ¬(0.0 < c.blockingThreshold ∧ c.blockingThreshold < 1.0) then
    some (.blockingThreshold c.blockingThreshold)
  else if c.monitorIntervalMs ≤ 0 then some .monitorInterval
  else if c.hysteresisTicks < 1 then some (.hysteresisTicks c.hysteresisTicks)
  else if c.mailboxCapacity < 1 then some .mailboxCapacity
  else if c.window.capacity < 1 ∨ c.window.minSamples < 1 ∨
    c.window.capacity < c.window.minSamples then
    some .windowSize
  else if c.window.maxAgeMs < 0 then some .windowAge
  else none

def rules (c : Config) : Scaling.Rules :=
  ⟨c.minWorkers, c.maxWorkers, c.blockingThreshold, c.hysteresisTicks⟩

/-- Time between two looks of the monitor, in nanoseconds. -/
def interval (c : Config) : Int := c.monitorIntervalMs * 1000000

/-- As many workers as the machine runs at once, and one if that is not known. The machine gives an
unsigned word of 32 bits, and its bits are taken for a signed one. -/
def defaultMaxWorkers (hardware : Nat) : Int :=
  if hardware = 0 then 1 else (hardware : Int).bmod 4294967296

end Pool.Config

end Headroom
