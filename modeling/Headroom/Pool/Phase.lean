import Headroom.Bytes

/-!
# The life of a pool
-/

namespace Headroom.Pool

inductive Phase
  | created | running | shuttingDown | stopped
deriving Repr, DecidableEq

namespace Phase

def all : List Phase := [created, running, shuttingDown, stopped]

def name : Phase → Bytes
  | created => text "created"
  | running => text "running"
  | shuttingDown => text "shutting_down"
  | stopped => text "stopped"

/-- Phases by number, in the order in which a pool goes through them. -/
def ofCode? : Int → Option Phase
  | 0 => some created
  | 1 => some running
  | 2 => some shuttingDown
  | 3 => some stopped
  | _ => none

end Phase

end Headroom.Pool
