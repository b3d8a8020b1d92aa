import Headroom.Environment

/-!
# Log lines

A log line names the part of the program that speaks and has a body of limited length. Lines above
the threshold are not written. The threshold comes from the environment unless it is set.
-/

namespace Headroom.Log

inductive Level
  | error | warn | info | debug
deriving Repr, DecidableEq

/-- Levels are compared by number; a larger one is more talkative. -/
def Level.code : Level → Int
  | error => 0
  | warn => 1
  | info => 2
  | debug => 3

/-- The threshold that the environment asks for. -/
def defaultThreshold (env : Environment) : Int :=
  max 0 (min 3 (env.int (text "CLIFFGUARD_LOG_LEVEL") Level.warn.code))

/-- The threshold in force after it was set to a number; a negative one leaves it to the
environment. -/
def threshold (env : Environment) (set : Int) : Int := if set < 0 then defaultThreshold env else set

/-- Room for the body of a line. -/
def bodyLimit : Nat := 511

/-- A line as it is written. -/
def line (component body : Bytes) : Bytes :=
  text "cliffguard: " ++ Bytes.untilNul component ++ text ": " ++ Bytes.clip bodyLimit body ++ [10]

/-- Something worth a line. -/
structure Entry where
  level : Level
  component : Bytes
  body : Bytes

/-- The text of a line at a numbered level, empty when it is above the threshold. -/
def write (threshold level : Int) (component body : Bytes) : Bytes :=
  if level ≤ threshold then line component body else []

def Entry.render (threshold : Int) (e : Entry) : Bytes :=
  write threshold e.level.code e.component e.body

/-- The lines for several entries, in order. -/
def render (threshold : Int) (entries : List Entry) : Bytes :=
  entries.flatMap (Entry.render threshold)

end Headroom.Log
