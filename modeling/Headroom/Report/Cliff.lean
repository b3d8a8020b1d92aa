import Headroom.Report.Duration
import Headroom.Report.Plot

/-!
# Reports of a profiling run

Findings and recommendations in words, a table of the levels, and all of it together with the plot.
Each line has limited room.
-/

namespace Headroom.Report

open Profile

/-- Room for a finding or a recommendation. -/
def lineLimit : Nat := 159

/-- Room for a row of the table with its newline. -/
def rowLimit : Nat := 127

def lineOf (s : Bytes) : Bytes := Bytes.clip lineLimit s

/-- How much slower the slowest calls are at the cliff than at the optimum. -/
def latencyFinding? (best cliff : Level Float) : Option Bytes :=
  if 0 < best.p99 then
    some (text "p99 latency at the cliff: "
      ++ Fixed.render 1 (Float.ofInt cliff.p99 / Float.ofInt best.p99) ++ text "x")
  else none

def findings (a : Analysis Float) : List Bytes :=
  let aborted :=
    if a.complete then []
    else [text "Profiling aborted after " ++ Bytes.ofNat a.levels.length ++ text " level(s): "
      ++ Bytes.untilNul (a.failure.getD (text "unknown error"))]
  let best := a.level? a.optimal
  let measured :=
    if a.levels.isEmpty then [text "No levels measured"]
    else
      (match a.cliff with
        | some threads =>
          [text "Saturation cliff at " ++ Bytes.ofInt threads ++ text " threads",
            text "  throughput drop: " ++ Fixed.render 1 (a.severity * 100.0) ++ text "%"]
        | none => [text "No saturation cliff in the tested range"])
      ++ (best.toList.map fun l =>
        text "Peak throughput " ++ Fixed.render 1 l.throughput ++ text " ops/s at " ++
          Bytes.ofInt a.optimal
          ++ text " threads")
      ++ (do latencyFinding? (← best) (← a.level? (← a.cliff))).toList
  (aborted ++ measured).map lineOf

def recommendations (a : Analysis Float) : List Bytes :=
  match a.levels.getLast? with
  | none => []
  | some last =>
    let optimal := Bytes.ofInt a.optimal
    let advice :=
      if a.cliff.isSome then
        (text "Do not use more than " ++ optimal ++ text " threads") ::
          (a.level? a.optimal).toList.map fun best =>
            text "Use " ++ optimal ++ text " threads to keep p99 under " ++ duration best.p99
      else if a.complete && a.optimal == last.threads then
        [text "Still scaling at " ++ optimal ++ text " threads; profile a higher max_threads"]
      else [text "Use " ++ optimal ++ text " threads"]
    let repair := if a.complete then []
      else [text "Fix the workload error and re-run for a full profile"]
    (advice ++ repair).map lineOf

/-- The verdict on a level, as it is marked in the table. -/
def rowMark (a : Analysis Float) (l : Level Float) : Bytes :=
  if a.cliff == some l.threads then text "  <- cliff"
  else if l.threads == a.optimal then text "  <- optimal"
  else []

def tableRow (a : Analysis Float) (l : Level Float) : Bytes :=
  Bytes.clip rowLimit <|
    Bytes.join [32]
      [Bytes.padLeft 7 (Bytes.ofInt l.threads), Bytes.padLeft 10 (Fixed.render 1 l.throughput),
        Bytes.padLeft 10 (duration l.p50), Bytes.padLeft 10 (duration l.p99),
        Bytes.padLeft 10 (Bytes.ofNat l.operations)]
      ++ rowMark a l ++ [10]

def tableHeader : Bytes := text "threads      ops/s        p50        p99        ops\n"

def table (a : Analysis Float) : Bytes := tableHeader ++ a.levels.flatMap (tableRow a)

/-- Table, findings, recommendations and plot. -/
def report (a : Analysis Float) : Bytes :=
  let items (lines : List Bytes) := lines.flatMap fun s => text "  " ++ s ++ [10]
  let advice := recommendations a
  table a ++ text "\nFindings:\n" ++ items (findings a)
    ++ (if advice.isEmpty then [] else text "Recommendations:\n" ++ items advice)
    ++ [10] ++ plot a plotHeight

end Headroom.Report
