import Headroom.Number.Fixed

/-!
# Durations as text
-/

namespace Headroom.Report

/-- A number of nanoseconds in the unit that suits its size: nanoseconds as they are, microseconds
with one place, milliseconds and seconds with two. -/
def duration (ns : Int) : Bytes :=
  let v := Float.ofInt ns
  if v < 1000.0 then Bytes.ofInt ns ++ text "ns"
  else if v < 1000000.0 then Fixed.render 1 (v / 1000.0) ++ text "us"
  else if v < 1000000000.0 then Fixed.render 2 (v / 1000000.0) ++ text "ms"
  else Fixed.render 2 (v / 1000000000.0) ++ text "s"

end Headroom.Report
