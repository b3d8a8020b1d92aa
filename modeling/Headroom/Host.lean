import Headroom.Files

/-!
# The machine the program runs on
-/

namespace Headroom

/-- What the program can find out about its surroundings. -/
structure Host where
  environment : Environment
  files : Files
  /-- Threads that run at once; 0 if that is not known. -/
  hardware : Nat
  /-- Whether the machine counts the computing time of each thread. -/
  threadClock : Bool
  /-- Attempts to launch a worker that the machine refuses, counted from 0. -/
  refusedLaunches : List Nat

/-- Whether the attempt with this number starts a worker. -/
def Host.launches (h : Host) (attempt : Nat) : Bool := !h.refusedLaunches.contains attempt

end Headroom
