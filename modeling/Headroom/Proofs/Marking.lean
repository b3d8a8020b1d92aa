import Headroom.Proofs.Capping
import Headroom.Proofs.Comparison
import Headroom.Proofs.Repetition
import Headroom.Proofs.Widths
import Headroom.Report.Cliff

/-!
# The verdict in the report of a run

The table has a row for each level, and the rows of the optimum and of the cliff are marked at their
ends, where they would be the first thing to be lost in a row that is too long. So whether the marks
are there is a matter of the numbers before them, and these are bounded by what a clock can tell:
times have 63 bits, threads have 31.

* **`Profile.Level.Bounded`**: the numbers of a level, for calls that take time;
  `bounded_of_runLevel` has that a measured level is one.
* **`Report.tableRow_eq`**: such a level has a whole row.
* **`Profile.Ranked`**: the optimum and the cliff are levels, in this order, and no two levels have
  the same threads.
* **`Report.table_marks_verdict`**: which rows are marked, and which numbers of threads the other
  lines name.
-/

namespace Headroom

namespace Profile

/-! ## The numbers of a level -/

/-- Calls that take time, as a course: those that fail are given any time, which nothing reads. -/
def Course.ofCalls (calls : Nat → Call) (hpos : Positive calls) : Course where
  time n := match calls n with
    | .takes time => time
    | .raises _ => 1
  fault n := match calls n with
    | .takes _ => none
    | .raises f => some f
  positive n := by
    split
    · next time hcall => exact hpos n time hcall
    · exact Int.one_pos

namespace Course

variable {calls : Nat → Call} {hpos : Positive calls}

theorem call_ofCalls : (ofCalls calls hpos).call = calls := by
  funext n
  unfold call ofCalls
  dsimp only
  cases calls n <;> rfl

theorem time_ofCalls_lt {most : Int} (hmost : 1 < most)
    (hbelow : ∀ n time, calls n = .takes time → time < most) (n : Nat) :
    (ofCalls calls hpos).time n < most := by
  unfold ofCalls
  dsimp only
  split
  · next time hcall => exact hbelow n time hcall
  · exact hmost

/-- The last call begins before the time is up, so the time that was used exceeds the span by less
than that call. -/
theorem Lasts.upTo_lt {c : Course} {span most : Int} {k : Nat} (hk : c.Lasts span k)
    (hspan : 0 < span) (hmost : ∀ n, c.time n < most) : c.upTo k < span + most := by
  have hsome : 0 < k := hk.lt_iff.mpr hspan
  obtain ⟨n, rfl⟩ := Nat.exists_eq_succ_of_ne_zero hsome.ne'
  have hbefore := hk.lt_iff.mp (Nat.lt_succ_self n)
  have hlast := hmost n
  rw [Nat.succ_eq_add_one, upTo_succ]
  omega

end Course

/-- The numbers of a level are those of a machine: what a word can hold, and a rate that such
numbers give. -/
structure Level.Bounded (l : Level Float) : Prop where
  threads_pos : 0 < l.threads
  threads_lt : l.threads < 2 ^ 31
  elapsed_pos : 0 < l.elapsed
  elapsed_lt : l.elapsed < 2 ^ 64
  /-- No thread calls twice in a nanosecond. -/
  operations_le : (l.operations : Int) ≤ 2 ^ 31 * l.elapsed
  operations_lt : l.operations < 2 ^ 94
  throughput : l.throughput = rate l.operations l.elapsed
  p50_pos : 0 < l.p50
  p50_lt : l.p50 < 2 ^ 63
  p99_pos : 0 < l.p99
  p99_lt : l.p99 < 2 ^ 63

/-- What a level measures is `Bounded`, if the calls are shorter than a word of 64 bits can say. -/
theorem bounded_of_runLevel {calls : Nat → Nat → Call} (hpos : ∀ t, Positive (calls t))
    (hbelow : ∀ t n time, calls t n = .takes time → time < 2 ^ 63) {count capacity : Nat}
    {span : Int} (hcount : 0 < count) (hmost : count < 2 ^ 31) (hspan : 0 < span)
    (hshort : span < 2 ^ 63) (hcapacity : 1 ≤ capacity) {l : Level Float}
    (hl : runLevel calls count span capacity = .ok l) : l.Bounded := by
  obtain ⟨courses, hcall, htime⟩ : ∃ courses : Nat → Course,
      (fun t => (courses t).call) = calls ∧ ∀ t n, (courses t).time n < 2 ^ 63 :=
    ⟨fun t => .ofCalls (calls t) (hpos t), funext fun _ => Course.call_ofCalls,
      fun t => Course.time_ofCalls_lt (by decide) (hbelow t)⟩
  rw [← hcall] at hl
  choose k hk using fun t => (courses t).exists_lasts span
  have hlevel : l = .ofThreads ((List.range count).map fun t =>
      (courses t).done capacity t (k t)) :=
    Except.ok.inj (hl.symm.trans (runLevel_of_quiet hk (quiet_of_runLevel hk hl)))
  have hrate : l.throughput = rate l.operations l.elapsed := by
    rw [hlevel]
    rfl
  have haccounts : Accounts courses k count span capacity l := by
    rw [hlevel]
    exact accounts_ofThreads hk hcount hspan hcapacity
  -- a thread makes at most as many calls as the level has nanoseconds, since each call takes one
  have hoperations : (l.operations : Int) ≤ count * span := by
    have hsum : ∑ t ∈ Finset.range count, k t ≤ count * span.toNat := by
      have hle := Finset.sum_le_card_nsmul (Finset.range count) k span.toNat fun t _ =>
        (hk t).le_toNat
      rwa [Finset.card_range, smul_eq_mul] at hle
    rw [haccounts.operations, ← Int.toNat_of_nonneg (Int.le_of_lt hspan)]
    exact_mod_cast hsum
  have hspan_le := haccounts.span_le
  have hlast : l.elapsed < span + 2 ^ 63 := by
    obtain ⟨t, -, helapsed⟩ := haccounts.elapsed.1
    rw [helapsed]
    exact (hk t).upTo_lt hspan (htime t)
  have hfactor : (count : Int) * span ≤ 2 ^ 31 * span :=
    Int.mul_le_mul_of_nonneg_right (by omega) (Int.le_of_lt hspan)
  obtain ⟨t, -, i, -, hp50⟩ := haccounts.p50
  obtain ⟨u, -, j, -, hp99⟩ := haccounts.p99
  have hthreads := haccounts.threads
  refine ⟨by omega, by omega, by omega, by omega, by omega, by omega, hrate, ?_, ?_, ?_, ?_⟩
  · exact hp50 ▸ (courses t).positive i
  · exact hp50 ▸ htime t i
  · exact hp99 ▸ (courses u).positive j
  · exact hp99 ▸ htime u j

theorem pos_of_mem_threadCounts {most : Int} {n : Nat} (hn : n ∈ threadCounts most) : 0 < n := by
  unfold threadCounts at hn
  split at hn
  · cases hn
  · dsimp only at hn
    split at hn
    · exact le_of_mem_doublings hn
    · rcases List.mem_append.mp hn with hdoubling | hlast
      · exact le_of_mem_doublings hdoubling
      · rw [List.mem_singleton.mp hlast]
        omega

theorem Ends.bounded {c : Config} {w : Workload} {a : Analysis Float} (hc : c.problem? = none)
    (hmost : c.maxThreads < 2 ^ 31) (hspan : c.durationMs * 1000000 < 2 ^ 63) (hw : w.Positive)
    (hbelow : ∀ level thread n time, w level thread n = .takes time → time < 2 ^ 63)
    (h : Ends c w a) {l : Level Float} (hl : l ∈ a.levels) : l.Bounded := by
  obtain ⟨i, hi⟩ := List.mem_iff_getElem?.mp hl
  obtain ⟨count, hcount, hlevel⟩ := h.runLevel_eq hw hi
  have hmem : count ∈ threadCounts c.maxThreads := List.mem_of_getElem? hcount
  have hle := le_of_mem_threadCounts hmem
  have husable := (Config.problem?_eq_none_iff c).mp hc
  have hpositive : 0 < c.span := by
    have := husable.duration
    rw [c.span_eq hc hspan]
    omega
  have hlimit : count < 2 ^ 31 := by omega
  exact bounded_of_runLevel (hw i) (hbelow i) (pos_of_mem_threadCounts hmem) hlimit hpositive
    (ofMilliseconds_lt _) husable.reservoir hlevel

/-! ## The order of the levels -/

theorem optimal_mem {levels : List (Level Float)} {drop : Float} (hsome : levels ≠ [])
    (complete : Bool) : ∃ l ∈ levels, l.threads = (analyze levels complete drop).optimal := by
  cases levels with
  | nil => exact absurd rfl hsome
  | cons first rest =>
    rw [analyze_cons]
    exact ⟨_, findCliff_fst_mem first rest, rfl⟩

/-- Where the level with a number of threads is: at some index, and `level?` finds it there. -/
theorem exists_index {a : Analysis Float} {threads : Int}
    (hmem : ∃ l ∈ a.levels, l.threads = threads) :
    ∃ (i : Nat) (l : Level Float), a.levels[i]? = some l ∧ a.level? threads = some l ∧
      l.threads = threads := by
  have hfound : (a.level? threads).isSome := by
    obtain ⟨l, hl, hthreads⟩ := hmem
    exact List.find?_isSome.mpr ⟨l, hl, beq_iff_eq.mpr hthreads⟩
  obtain ⟨l, hl⟩ := Option.isSome_iff_exists.mp hfound
  obtain ⟨i, hi⟩ := List.mem_iff_getElem?.mp (List.mem_of_find?_eq_some hl)
  have hthreads := List.find?_some hl
  exact ⟨i, l, hi, hl, beq_iff_eq.mp hthreads⟩

/-- Levels are in the order of their numbers of threads, the optimum is a level, and so is the
cliff, which has more threads. -/
structure Ranked (a : Analysis Float) : Prop where
  increasing : a.levels.Pairwise (·.threads < ·.threads)
  optimal : ∃ l ∈ a.levels, l.threads = a.optimal
  cliff : ∀ k, a.cliff = some k → a.optimal < k ∧ ∃ l ∈ a.levels, l.threads = k

/-- What a run ends with is `Ranked`, if it has measured any level at all. -/
theorem Ends.ranked {c : Config} {w : Workload} {a : Analysis Float} (hw : w.Positive)
    (h : Ends c w a) (hsome : a.levels ≠ []) : Ranked a := by
  have hincreasing := h.threads_increasing hw
  obtain ⟨k, -, ⟨complete, failure, rfl⟩, -⟩ := h.covers
  change (analyze (firstLevels c w k) complete c.cliffDrop).levels ≠ [] at hsome
  change (analyze (firstLevels c w k) complete c.cliffDrop).levels.Pairwise _ at hincreasing
  rw [levels_analyze] at hsome hincreasing
  refine ⟨?_, ?_, fun k' hcliff => ?_⟩
  · show (analyze (firstLevels c w k) complete c.cliffDrop).levels.Pairwise _
    rwa [levels_analyze]
  · show ∃ l ∈ (analyze (firstLevels c w k) complete c.cliffDrop).levels, _
    rw [levels_analyze]
    exact optimal_mem hsome complete
  · show _ ∧ ∃ l ∈ (analyze (firstLevels c w k) complete c.cliffDrop).levels, _
    rw [levels_analyze]
    obtain ⟨-, hmem, hlt⟩ := optimal_lt_cliff hincreasing hcliff
    exact ⟨hlt, hmem⟩

namespace Ranked

variable {a : Analysis Float} {l m : Level Float} {i j : Nat}

theorem lt_iff_threads (h : Ranked a) (hl : a.levels[i]? = some l) (hm : a.levels[j]? = some m) :
    i < j ↔ l.threads < m.threads := by
  obtain ⟨hi, rfl⟩ := List.getElem?_eq_some_iff.mp hl
  obtain ⟨hj, rfl⟩ := List.getElem?_eq_some_iff.mp hm
  have hlt := List.pairwise_iff_getElem.mp h.increasing
  refine ⟨hlt i j hi hj, fun hthreads => ?_⟩
  rcases Nat.lt_trichotomy i j with hij | rfl | hji
  · exact hij
  · omega
  · have := hlt j i hj hi hji
    omega

/-- No two levels have the same number of threads, so a level is known by it. -/
theorem eq_iff_threads (h : Ranked a) (hl : a.levels[i]? = some l) (hm : a.levels[j]? = some m) :
    i = j ↔ l.threads = m.threads := by
  have hij := h.lt_iff_threads hl hm
  have hji := h.lt_iff_threads hm hl
  omega

end Ranked

end Profile

/-! ## Words -/

namespace Bytes

variable {c : UInt8}

/-- White space parts words: it belongs to none of them, and nothing goes across it. -/
theorem words_append_space (hc : isSpace c = true) (a b : Bytes) :
    words (a ++ c :: b) = words a ++ words b := by
  obtain ⟨ws, hws⟩ := exists_falls a
  rw [words_of_falls hws]
  -- by how the first part falls into words; what follows its last word stays apart from it
  induction hws with
  | nil => exact words_cons_space hc b
  | space hd _ ih =>
    rw [List.cons_append, words_cons_space hd]
    exact ih
  | @word w s ws hw hapart _ ih =>
    have hrest : Apart (s ++ c :: b) := by
      cases s with
      | nil => exact fun d hd => Option.mem_some.mp hd ▸ hc
      | cons d s => exact hapart
    rw [List.append_assoc, words_append hw hrest, ih]
    rfl

theorem words_of_isWord {w : Bytes} (hw : IsWord w) : words w = [w] := by
  have hwords := words_append hw (s := []) nofun
  rwa [List.append_nil] at hwords

/-- A text whose first byte occurs nowhere in the first part can only be found in the second one. -/
theorem infix_append_iff {a b p : Bytes} (hc : c ∉ a) : c :: p <:+: a ++ b ↔ c :: p <:+: b := by
  induction a with
  | nil => rfl
  | cons d a ih =>
    rw [List.mem_cons, not_or] at hc
    rw [List.cons_append, List.infix_cons_iff, ih hc.2, List.cons_prefix_cons]
    exact or_iff_right fun h => hc.1 h.1

end Bytes

namespace Report

open Profile

/-! ## The rows -/

/-- What stands in a row before its mark: numbers and times, each in its column. -/
def fields (l : Level Float) : Bytes :=
  Bytes.join [32]
    [Bytes.padLeft 7 (Bytes.ofInt l.threads), Bytes.padLeft 10 (Fixed.render 1 l.throughput),
      Bytes.padLeft 10 (duration l.p50), Bytes.padLeft 10 (duration l.p99),
      Bytes.padLeft 10 (Bytes.ofNat l.operations)]

/-- A row with all the room that it needs. The program prints at most `rowLimit` bytes of it, which
`tableRow_eq` shows to be enough. -/
def row (a : Analysis Float) (l : Level Float) : Bytes := fields l ++ rowMark a l

def headings : Bytes := text "threads      ops/s        p50        p99        ops"

section Bounded

variable {l : Level Float} (h : l.Bounded)

include h

theorem figure_threads : Figure 10 (Bytes.ofInt l.threads) := by
  have hpos := h.threads_pos
  have hlt := h.threads_lt
  obtain ⟨n, hn⟩ := Int.eq_ofNat_of_zero_le (Int.le_of_lt hpos)
  rw [hn]
  exact Figure.ofNat (by omega) (by decide)

theorem figure_throughput : Figure 21 (Fixed.render 1 l.throughput) := by
  have hrate := upTo_rate h.operations_le h.elapsed_pos h.elapsed_lt
  rw [← h.throughput] at hrate
  exact Figure.render (k := 62) (t := 20) hrate (by decide) (by decide)

theorem figure_p50 : Figure 15 (duration l.p50) := .duration (Int.le_of_lt h.p50_pos) h.p50_lt

theorem figure_p99 : Figure 15 (duration l.p99) := .duration (Int.le_of_lt h.p99_pos) h.p99_lt

theorem figure_operations : Figure 29 (Bytes.ofNat l.operations) :=
  .ofNat (Nat.lt_trans h.operations_lt (by decide)) (by decide)

end Bounded

theorem length_padLeft (width : Nat) (s : Bytes) :
    (Bytes.padLeft width s).length = max width s.length := by
  rw [Bytes.padLeft, List.length_append, List.length_replicate]
  omega

theorem fields_eq (l : Level Float) : fields l =
    Bytes.padLeft 7 (Bytes.ofInt l.threads) ++
      32 :: (Bytes.padLeft 10 (Fixed.render 1 l.throughput) ++
      32 :: (Bytes.padLeft 10 (duration l.p50) ++ 32 :: (Bytes.padLeft 10 (duration l.p99) ++
        32 :: Bytes.padLeft 10 (Bytes.ofNat l.operations)))) := by
  simp [fields, Bytes.join]

/-- The `fields` take at most 94 bytes, even where a number is too long for its column. -/
theorem length_fields_le {l : Level Float} (h : l.Bounded) : (fields l).length ≤ 94 := by
  have hthreads := (figure_threads h).short
  have hthroughput := (figure_throughput h).short
  have hp50 := (figure_p50 h).short
  have hp99 := (figure_p99 h).short
  have hoperations := (figure_operations h).short
  simp only [fields_eq, List.length_append, List.length_cons, length_padLeft]
  omega

/-- A byte that is neither a blank nor a figure stands in no field. -/
theorem not_mem_fields {l : Level Float} (h : l.Bounded) {c : UInt8} (hblank : c ≠ 32)
    (hfigure : isFigure c = false) :
    c ∉ fields l := by
  have hfield {width room : Nat} {s : Bytes} (hs : Figure width s) : c ∉ Bytes.padLeft room s := by
    intro hc
    rcases mem_padLeft hc with rfl | hmem
    · exact hblank rfl
    · rw [hs.plain c hmem] at hfigure
      cases hfigure
  rw [fields_eq]
  simp only [List.mem_append, List.mem_cons, not_or]
  exact ⟨hfield (figure_threads h), hblank, hfield (figure_throughput h), hblank,
    hfield (figure_p50 h), hblank, hfield (figure_p99 h), hblank, hfield (figure_operations h)⟩

/-- `rowMark` asks for the cliff first, so a level that is both would be marked as a cliff only. -/
theorem rowMark_cases (a : Analysis Float) (l : Level Float) :
    a.cliff = some l.threads ∧ rowMark a l = text "  <- cliff" ∨
    a.cliff ≠ some l.threads ∧ l.threads = a.optimal ∧ rowMark a l = text "  <- optimal" ∨
    a.cliff ≠ some l.threads ∧ l.threads ≠ a.optimal ∧ rowMark a l = [] := by
  unfold rowMark
  by_cases hcliff : a.cliff = some l.threads
  · exact .inl ⟨hcliff, if_pos (beq_iff_eq.mpr hcliff)⟩
  · rw [if_neg (mt beq_iff_eq.mp hcliff)]
    by_cases hoptimal : l.threads = a.optimal
    · exact .inr (.inl ⟨hcliff, hoptimal, if_pos (beq_iff_eq.mpr hoptimal)⟩)
    · exact .inr (.inr ⟨hcliff, hoptimal, if_neg (mt beq_iff_eq.mp hoptimal)⟩)

/-- No row needs as much room as it has: `rowLimit` is above the 94 bytes of `fields` and the
longest mark. -/
theorem length_row_lt (a : Analysis Float) {l : Level Float} (h : l.Bounded) :
    (row a l).length < rowLimit := by
  have hfields := length_fields_le h
  have hmark : (rowMark a l).length ≤ 12 := by
    rcases rowMark_cases a l with ⟨-, hmark⟩ | ⟨-, -, hmark⟩ | ⟨-, -, hmark⟩ <;> rw [hmark] <;>
      decide
  rw [row, List.length_append, rowLimit]
  omega

/-- A row has room: nothing is cut off, and its end of line is there. -/
theorem tableRow_eq (a : Analysis Float) {l : Level Float} (h : l.Bounded) :
    tableRow a l = row a l ++ [10] := by
  have hlength := length_row_lt a h
  show Bytes.clip rowLimit (row a l ++ [10]) = _
  apply List.take_of_length_le
  rw [List.length_append, List.length_singleton]
  omega

theorem newline_not_mem_row (a : Analysis Float) {l : Level Float} (h : l.Bounded) :
    10 ∉ row a l := by
  have hmark : 10 ∉ rowMark a l := by
    rcases rowMark_cases a l with ⟨-, hmark⟩ | ⟨-, -, hmark⟩ | ⟨-, -, hmark⟩ <;> rw [hmark] <;>
      decide
  rw [row, List.mem_append, not_or]
  exact ⟨not_mem_fields h (by decide) (by decide), hmark⟩

theorem split_table {a : Analysis Float} (h : ∀ l ∈ a.levels, l.Bounded) :
    Bytes.split 10 (table a) = headings :: a.levels.map (row a) ++ [[]] := by
  have hrows : a.levels.flatMap (tableRow a) = (a.levels.map (row a)).flatMap (· ++ [10]) := by
    rw [List.flatMap_map]
    exact List.flatMap_congr fun l hl => tableRow_eq a (h l hl)
  have hheader : tableHeader = headings ++ [10] := by decide
  have hlines : table a = (headings :: a.levels.map (row a)).flatMap (· ++ [10]) := by
    rw [table, hrows, List.flatMap_cons, hheader]
  rw [hlines]
  apply Bytes.split_lines
  refine List.forall_mem_cons.mpr ⟨by decide, List.forall_mem_map.mpr fun l hl => ?_⟩
  exact newline_not_mem_row a (h l hl)

/-! ## The marks -/

section Marks

variable {a : Analysis Float} {l : Level Float}

/-- No field has an arrow in it, so a mark that is found in a row is its `rowMark`. -/
theorem mark_row_iff (h : l.Bounded) {mark word : Bytes} (hmark : mark = 60 :: word) :
    mark <:+: row a l ↔ mark <:+: rowMark a l := by
  rw [hmark]
  exact Bytes.infix_append_iff (not_mem_fields h (by decide) (by decide))

/-- The row of the cliff is marked as a cliff, and no other row. -/
theorem cliff_mark_iff (h : l.Bounded) :
    text "<- cliff" <:+: row a l ↔ a.cliff = some l.threads := by
  have harrow : text "<- cliff" = 60 :: text "- cliff" := by decide
  rw [mark_row_iff h harrow]
  rcases rowMark_cases a l with ⟨hcliff, hmark⟩ | ⟨hcliff, -, hmark⟩ | ⟨hcliff, -, hmark⟩ <;>
    rw [hmark]
  · exact iff_of_true (by decide) hcliff
  · exact iff_of_false (by decide) hcliff
  · exact iff_of_false (by decide) hcliff

/-- The row of the optimum is marked as optimal, unless it is the cliff. -/
theorem optimal_mark_iff (h : l.Bounded) :
    text "<- optimal" <:+: row a l ↔ a.cliff ≠ some l.threads ∧ l.threads = a.optimal := by
  have harrow : text "<- optimal" = 60 :: text "- optimal" := by decide
  rw [mark_row_iff h harrow]
  rcases rowMark_cases a l with ⟨hcliff, hmark⟩ | ⟨hcliff, hoptimal, hmark⟩ | ⟨-, hoptimal,
    hmark⟩ <;> rw [hmark]
  · exact iff_of_false (by decide) fun h => h.1 hcliff
  · exact iff_of_true (by decide) ⟨hcliff, hoptimal⟩
  · exact iff_of_false (by decide) fun h => hoptimal h.2

end Marks

/-- Of some lines exactly the one at position `i` has the text `mark` in it. -/
def OnlyAt (mark : Bytes) (lines : List Bytes) (i : Nat) : Prop :=
  i < lines.length ∧ ∀ j line, lines[j]? = some line → (mark <:+: line ↔ j = i)

/-- The level with a number of threads is marked, and no other level (`OnlyAt`). -/
theorem onlyAt_of_threads {a : Analysis Float} (ha : Ranked a) {mark : Bytes} {threads : Int}
    (hmark : ∀ l ∈ a.levels, (mark <:+: row a l ↔ l.threads = threads)) {i : Nat}
    {m : Level Float} (hm : a.levels[i]? = some m) (hthreads : m.threads = threads) :
    OnlyAt mark (a.levels.map (row a)) i := by
  refine ⟨?_, fun j line hline => ?_⟩
  · rw [List.length_map]
    exact (List.getElem?_eq_some_iff.mp hm).1
  · rw [List.getElem?_map] at hline
    obtain ⟨l, hl, rfl⟩ := Option.map_eq_some_iff.mp hline
    rw [hmark l (List.mem_of_getElem? hl), ha.eq_iff_threads hl hm, hthreads]

/-! ## The other lines -/

/-- A word that begins like the one for threads, so that it does not matter what is written right
behind it. -/
def isNoun (w : Bytes) : Bool := (text "threads").isPrefixOf w

/-- The words that stand right before a word for threads, in order. -/
def counts : List Bytes → List Bytes
  | w :: noun :: rest => if isNoun noun then w :: counts (noun :: rest) else counts (noun :: rest)
  | _ => []

/-- The numbers of threads that a line names: how a reader would take a recommendation. -/
def named (s : Bytes) : List Bytes := counts s.words

theorem counts_cons {v w : Bytes} {ws : List Bytes} (hv : isNoun v = false) :
    counts (w :: v :: ws) = counts (v :: ws) := by
  rw [counts, if_neg (Bool.eq_false_iff.mp hv)]

theorem counts_of_plain {w : Bytes} {ws : List Bytes} (h : ws.all (!isNoun ·) = true) :
    counts (w :: ws) = [] := by
  induction ws generalizing w with
  | nil => rfl
  | cons v ws ih =>
    rw [List.all_cons, Bool.and_eq_true, Bool.not_eq_true'] at h
    rw [counts_cons h.1, ih h.2]

/-- A sentence with one word for threads names the one word before it. -/
theorem counts_around {before rest : List Bytes} {o noun : Bytes}
    (hbefore : before.all (!isNoun ·) = true) (ho : isNoun o = false) (hnoun : isNoun noun = true)
    (hrest : rest.all (!isNoun ·) = true) :
    counts (before ++ o :: noun :: rest) = [o] := by
  induction before with
  | nil => rw [List.nil_append, counts, if_pos hnoun, counts_of_plain hrest]
  | cons w before ih =>
    rw [List.all_cons, Bool.and_eq_true] at hbefore
    have hnext := ih hbefore.2
    cases before with
    | nil => exact (counts_cons ho).trans hnext
    | cons v before =>
      have hv := hbefore.2
      rw [List.all_cons, Bool.and_eq_true, Bool.not_eq_true'] at hv
      exact (counts_cons hv.1).trans hnext

/-- A `Figure` is not a word for threads, so no rate or time is taken for one. -/
theorem isNoun_of_figure {width : Nat} {s : Bytes} (h : Figure width s) : isNoun s = false := by
  have hnoun : text "threads" = 116 :: text "hreads" := by decide
  obtain ⟨c, rest, rfl⟩ := List.exists_cons_of_ne_nil h.some
  rw [isNoun, hnoun, List.isPrefixOf_cons_cons]
  have hfirst := h.plain c List.mem_cons_self
  have hne : (116 == c) = false := by
    rw [beq_eq_false_iff_ne]
    rintro rfl
    cases hfirst
  rw [hne, Bool.false_and]

theorem all_of_figure {width : Nat} {s : Bytes} (h : Figure width s) :
    [s].all (!isNoun ·) = true := by
  rw [List.all_cons, isNoun_of_figure h]
  rfl

/-- The parts of a line before and behind a number of threads. Which words they have is settled by
evaluation. -/
structure Frames (first last : Bytes) : Prop where
  short : first.length + last.length ≤ 140
  gapBefore : first.getLast? = some 32
  gapBehind : last.head? = some 32
  before : first.words.all (!isNoun ·) = true
  noun : last.words.head?.any isNoun = true
  rest : last.words.tail.all (!isNoun ·) = true

section Lines

variable {o : Bytes} (ho : Figure 10 o)

include ho

/-- A line that `first` and `last` frame names the number between them, whatever it is. -/
theorem Frames.named_eq {first last : Bytes} (h : Frames first last) :
    named (lineOf (first ++ o ++ last)) = [o] := by
  obtain ⟨before, rfl⟩ := List.getLast?_eq_some_iff.mp h.gapBefore
  obtain ⟨after, rfl⟩ := List.head?_eq_some_iff.mp h.gapBehind
  have hbefore := h.before
  rw [Bytes.words_append_space rfl, List.all_append, Bool.and_eq_true] at hbefore
  have hnoun := h.noun
  have hrest := h.rest
  rw [Bytes.words_cons_space rfl] at hnoun hrest
  -- the count is the only word between the two parts, and each of them is cut at its blank
  have hwords : Bytes.words (before ++ [32] ++ o ++ 32 :: after) = Bytes.words before ++
      o :: Bytes.words after := by
    rw [List.append_assoc, List.append_assoc, List.singleton_append, Bytes.words_append_space rfl,
      Bytes.words_append_space rfl, Bytes.words_of_isWord ho.isWord]
    rfl
  have hline : lineOf (before ++ [32] ++ o ++ 32 :: after) = before ++ [32] ++ o ++
      32 :: after := by
    -- the line is not cut off
    apply List.take_of_length_le
    have hcount := ho.short
    have hshort := h.short
    simp only [List.length_append, List.length_cons, List.length_nil, lineLimit] at hshort ⊢
    omega
  rw [hline, named, hwords]
  -- what counts is followed by a word for threads, which `noun` says is there
  cases hafter : Bytes.words after with
  | nil =>
    rw [hafter] at hnoun
    cases hnoun
  | cons noun rest =>
    rw [hafter] at hnoun hrest
    exact counts_around hbefore.1 (isNoun_of_figure ho) hnoun hrest

/-- The line on the peak names one number of threads, besides the throughput. -/
theorem named_peak {r : Bytes} (hr : Figure 21 r) :
    named (lineOf (text "Peak throughput " ++ r ++ text " ops/s at " ++ o ++ text " threads")) =
      [o] := by
  refine Frames.named_eq ho ⟨?_, ?_, by decide, ?_, by decide, by decide⟩
  · have hrate := hr.short
    have hlength : (text "Peak throughput ").length = 16 ∧ (text " ops/s at ").length = 10 ∧
        (text " threads").length = 8 := by decide
    simp only [List.length_append, hlength]
    omega
  · rw [List.getLast?_append, show (text " ops/s at ").getLast? = some 32 by decide]
    rfl
  · have hfirst : text "Peak throughput " = text "Peak throughput" ++ [32] := by decide
    have hlast : text " ops/s at " = 32 :: text "ops/s at " := by decide
    rw [hfirst, hlast, List.append_assoc, List.append_assoc, List.singleton_append,
      Bytes.words_append_space rfl, Bytes.words_append_space rfl, Bytes.words_of_isWord hr.isWord,
      List.all_append, List.all_append, all_of_figure hr]
    decide

theorem named_limit : named (lineOf (text "Do not use more than " ++ o ++ text " threads")) = [o] :=
  Frames.named_eq ho ⟨by decide, by decide, by decide, by decide, by decide, by decide⟩

theorem named_use : named (lineOf (text "Use " ++ o ++ text " threads")) = [o] :=
  Frames.named_eq ho ⟨by decide, by decide, by decide, by decide, by decide, by decide⟩

theorem named_scaling :
    named (lineOf (text "Still scaling at " ++ o ++
      text " threads; profile a higher max_threads")) = [o] :=
  Frames.named_eq ho ⟨by decide, by decide, by decide, by decide, by decide, by decide⟩

theorem named_latency {d : Bytes} (hd : Figure 15 d) :
    named (lineOf (text "Use " ++ o ++ text " threads to keep p99 under " ++ d)) = [o] := by
  have hlast : text " threads to keep p99 under " = text " threads to keep p99 under" ++ [32] := by
    decide
  have hwords : Bytes.words (text " threads to keep p99 under") =
      text "threads" :: [text "to", text "keep", text "p99", text "under"] := by decide
  have hlength : (text "Use ").length = 4 ∧ (text " threads to keep p99 under").length = 26 := by
    decide
  have hline : text "Use " ++ o ++ text " threads to keep p99 under " ++ d =
      text "Use " ++ o ++ (text " threads to keep p99 under" ++ 32 :: d) := by
    rw [hlast, List.append_assoc _ _ d, List.append_assoc _ [32] d, List.singleton_append]
  rw [hline]
  refine Frames.named_eq ho ⟨?_, by decide, ?_, by decide, ?_, ?_⟩
  · have hshort := hd.short
    simp only [List.length_append, List.length_cons, hlength]
    omega
  · rw [List.head?_append, show (text " threads to keep p99 under").head? = some 32 by decide]
    rfl
  · rw [Bytes.words_append_space rfl, hwords, List.cons_append, List.head?_cons, Option.any_some]
    decide
  · rw [Bytes.words_append_space rfl, hwords, Bytes.words_of_isWord hd.isWord, List.cons_append,
      List.tail_cons, List.all_append, all_of_figure hd]
    decide

end Lines

theorem not_peak {first : Bytes} (hfirst : first.take 2 ≠ text "Pe") (hlong : 2 ≤ first.length)
    (rest : Bytes) :
    ¬text "Peak throughput" <+: lineOf (first ++ rest) := by
  rintro ⟨more, hmore⟩
  have hpeak : text "Peak throughput" = text "Pe" ++ text "ak throughput" := by decide
  have htake := congrArg (List.take 2) hmore
  rw [hpeak, List.append_assoc, List.take_append_of_le_length (by decide), lineOf, Bytes.clip,
    List.take_take, Nat.min_eq_left (by decide), List.take_append_of_le_length hlong] at htake
  exact hfirst (htake.symm.trans (by decide))

theorem latency_not_peak {best cliff : Level Float} {s : Bytes}
    (hs : latencyFinding? best cliff = some s) :
    ¬text "Peak throughput" <+: lineOf s := by
  unfold latencyFinding? at hs
  split at hs
  · cases hs
    rw [List.append_assoc]
    exact not_peak (by decide) (by decide) _
  · cases hs

/-- Each advice names a number of threads, and what comes after it does not. -/
theorem named_of_advice {o : Bytes} {advice more : List Bytes} (hsome : advice ≠ [])
    (hadvice : ∀ s ∈ advice, named (lineOf s) = [o]) (hmore : ∀ s ∈ more, named (lineOf s) = []) :
    (∃ s ∈ (advice ++ more).map lineOf, named s = [o]) ∧ ∀ s ∈ (advice ++ more).map lineOf,
      named s ⊆ [o] := by
  refine ⟨?_, List.forall_mem_map.mpr (List.forall_mem_append.mpr ⟨fun s hs => ?_, fun s hs => ?_⟩)⟩
  · obtain ⟨s, hs⟩ := List.exists_mem_of_ne_nil advice hsome
    exact ⟨_, List.mem_map_of_mem (List.mem_append_left more hs), hadvice s hs⟩
  · rw [hadvice s hs]
    exact List.Subset.refl _
  · rw [hmore s hs]
    exact List.nil_subset _

section Analysed

variable {a : Analysis Float} {best : Level Float} (hbest : a.level? a.optimal = some best)
  (ho : Figure 10 (Bytes.ofInt a.optimal))

include hbest ho

/-- The `findings` have a line on the peak, and it names the optimum. -/
theorem findings_named (hr : Figure 21 (Fixed.render 1 best.throughput)) :
    (∃ s ∈ findings a, text "Peak throughput" <+: s) ∧
      ∀ s ∈ findings a, text "Peak throughput" <+: s → named s = [Bytes.ofInt a.optimal] := by
  have hsome : a.levels.isEmpty = false :=
    List.isEmpty_eq_false_iff.mpr (List.ne_nil_of_mem (List.mem_of_find?_eq_some hbest))
  have hstart (rest : Bytes) :
      text "Peak throughput" <+: lineOf (text "Peak throughput " ++ rest) := by
    have hfirst : text "Peak throughput " = text "Peak throughput" ++ [32] := by decide
    rw [lineOf, Bytes.clip, List.prefix_take_iff, hfirst, List.append_assoc]
    exact ⟨List.prefix_append _ _, by decide⟩
  -- the lines in their order: what ended the run, the cliff, the peak, the latency
  unfold findings
  dsimp only
  rw [hsome, hbest, if_neg Bool.false_ne_true]
  refine ⟨⟨_, List.mem_map_of_mem
    (List.mem_append_right _ (List.mem_append_left _ (List.mem_append_right _
    List.mem_cons_self))), ?_⟩, List.forall_mem_map.mpr
      (List.forall_mem_append.mpr ⟨?_, List.forall_mem_append.mpr
      ⟨List.forall_mem_append.mpr ⟨?_, ?_⟩, ?_⟩⟩)⟩
  · simp only [List.append_assoc]
    exact hstart _
  · split
    · exact List.forall_mem_nil _
    · simp only [List.append_assoc]
      exact List.forall_mem_singleton.mpr fun h => absurd h (not_peak (by decide) (by decide) _)
  · split
    · simp only [List.append_assoc]
      refine List.forall_mem_cons.mpr ⟨fun h => ?_, List.forall_mem_singleton.mpr fun h => ?_⟩
      · exact absurd h (not_peak (by decide) (by decide) _)
      · exact absurd h (not_peak (by decide) (by decide) _)
    · refine List.forall_mem_singleton.mpr fun h => absurd h ?_
      rw [← List.append_nil (text "No saturation cliff in the tested range")]
      exact not_peak (by decide) (by decide) []
  · exact List.forall_mem_singleton.mpr fun _ => named_peak ho hr
  · intro s hs h
    obtain ⟨_, -, hs⟩ := Option.bind_eq_some_iff.mp (Option.mem_toList.mp hs)
    obtain ⟨_, -, hs⟩ := Option.bind_eq_some_iff.mp hs
    obtain ⟨_, -, hs⟩ := Option.bind_eq_some_iff.mp hs
    exact absurd h (latency_not_peak hs)

/-- The `recommendations` name the optimum, and no other number of threads. -/
theorem recommendations_named (hd : Figure 15 (duration best.p99)) :
    (∃ s ∈ recommendations a, named s = [Bytes.ofInt a.optimal]) ∧
      ∀ s ∈ recommendations a, named s ⊆ [Bytes.ofInt a.optimal] := by
  have hsome : a.levels ≠ [] := List.ne_nil_of_mem (List.mem_of_find?_eq_some hbest)
  unfold recommendations
  rw [List.getLast?_eq_some_getLast hsome]
  dsimp only
  rw [hbest]
  apply named_of_advice
  · split
    · exact List.cons_ne_nil _ _
    · split <;> exact List.cons_ne_nil _ _
  · split
    · exact List.forall_mem_cons.mpr ⟨named_limit ho,
        List.forall_mem_singleton.mpr (named_latency ho hd)⟩
    · split
      · exact List.forall_mem_singleton.mpr (named_scaling ho)
      · exact List.forall_mem_singleton.mpr (named_use ho)
  · split
    · exact List.forall_mem_nil _
    · exact List.forall_mem_singleton.mpr (by decide)

end Analysed

/-! ## The report of a run -/

/-- **The report gives the verdict once.** The configuration is usable, each call takes at least a
nanosecond, and threads and times are in the range of a machine. If the run has measured a level,
then no row of the table is cut, and the table consists of the headings and a row for each level in
order. Exactly the row of the optimum is marked as the optimum (`OnlyAt`). With a cliff exactly its
row, which comes after that of the optimum, is marked as the cliff, and without one no row is. The
line on the peak names the optimum as its number of threads (`named`), and so does every advice that
names one. -/
theorem table_marks_verdict {c : Config} (hc : c.problem? = none) (hmost : c.maxThreads < 2 ^ 31)
    (hspan : c.durationMs * 1000000 < 2 ^ 63) {w : Workload} (hw : w.Positive)
    (hbelow : ∀ level thread n time, w level thread n = .takes time → time < 2 ^ 63) :
    ∃ a log, run c w = .ok (a, log) ∧ (a.levels ≠ [] →
      (∀ l ∈ a.levels, (row a l).length < rowLimit ∧ tableRow a l = row a l ++ [10]) ∧
      Bytes.split 10 (table a) = headings :: a.levels.map (row a) ++ [[]] ∧
      (∃ i, OnlyAt (text "<- optimal") (a.levels.map (row a)) i ∧
        a.levels[i]? = a.level? a.optimal ∧ ∀ k, a.cliff = some k →
          ∃ j, OnlyAt (text "<- cliff") (a.levels.map (row a)) j ∧ a.levels[j]? = a.level? k ∧
            i < j) ∧
      (a.cliff = none → ∀ line ∈ a.levels.map (row a), ¬text "<- cliff" <:+: line) ∧
      ((∃ s ∈ findings a, text "Peak throughput" <+: s) ∧
        ∀ s ∈ findings a, text "Peak throughput" <+: s → named s = [Bytes.ofInt a.optimal]) ∧
      (∃ s ∈ recommendations a, named s = [Bytes.ofInt a.optimal]) ∧
      ∀ s ∈ recommendations a, named s ⊆ [Bytes.ofInt a.optimal]) := by
  obtain ⟨a, log, hrun, hends⟩ := ends_run hc hw
  refine ⟨a, log, hrun, fun hsome => ?_⟩
  have hbounded : ∀ l ∈ a.levels, l.Bounded := fun l => hends.bounded hc hmost hspan hw hbelow
  have hranked := hends.ranked hw hsome
  obtain ⟨i, best, hi, hbest, hthreads⟩ := exists_index hranked.optimal
  have hin := hbounded best (List.mem_of_getElem? hi)
  have ho : Figure 10 (Bytes.ofInt a.optimal) := hthreads ▸ figure_threads hin
  refine ⟨fun l hl => ⟨length_row_lt a (hbounded l hl), tableRow_eq a (hbounded l hl)⟩,
    split_table hbounded, ⟨i, ?_, hi.trans hbest.symm, fun k hk => ?_⟩, fun hnone =>
      ?_, findings_named hbest ho (figure_throughput hin),
      recommendations_named hbest ho (figure_p99 hin)⟩
  · refine onlyAt_of_threads hranked (fun l hl => ?_) hi hthreads
    rw [optimal_mark_iff (hbounded l hl), and_iff_right_iff_imp]
    -- the optimum has fewer threads than the cliff, so it is not marked as the cliff
    intro hoptimal hcliff
    have hlt := (hranked.cliff l.threads hcliff).1
    omega
  · obtain ⟨hlt, hmem⟩ := hranked.cliff k hk
    obtain ⟨j, cliff, hj, hcliff, hthreads'⟩ := exists_index hmem
    refine ⟨j, onlyAt_of_threads hranked (fun l hl => ?_) hj hthreads', hj.trans hcliff.symm, ?_⟩
    · rw [cliff_mark_iff (hbounded l hl), hk, Option.some.injEq, eq_comm]
    · rw [hranked.lt_iff_threads hi hj, hthreads, hthreads']
      exact hlt
  · refine List.forall_mem_map.mpr fun l hl => ?_
    rw [cliff_mark_iff (hbounded l hl), hnone]
    exact nofun

/-- Two threads are best and four are a cliff, so the second row is marked and a later one. -/
theorem table_marks_verdict_crowded :
    Config.problem? { maxThreads := 4, durationMs := 1 } = none ∧ ∃ a log,
      run { maxThreads := 4, durationMs := 1 } Probe.crowded = .ok (a, log) ∧ a.optimal = 2 ∧
        a.cliff = some 4 ∧
      ∃ i j, OnlyAt (text "<- optimal") (a.levels.map (row a)) i ∧
        OnlyAt (text "<- cliff") (a.levels.map (row a)) j ∧
        i < j := by
  have hvalid : Config.problem? { maxThreads := 4, durationMs := 1 } = none := by decide
  have hcounts : threadCounts 4 = [1, 2, 4] := by simp [threadCounts, doublings]
  have hcalls : ∀ level thread n time, Probe.crowded level thread n = .takes time → 0 < time ∧
      time < 2 ^ 63 := by
    intro level thread n time hcall
    cases hcall
    split <;> decide
  obtain ⟨a, log, hrun, htold⟩ := table_marks_verdict hvalid (by decide) (by decide)
    (fun level thread n time hcall => (hcalls level thread n time hcall).1)
    fun level thread n time hcall => (hcalls level thread n time hcall).2
  have ha :
      (runLevels { maxThreads := 4, durationMs := 1 } Probe.crowded 0 [] [1, 2, 4]).1 = a := by
    unfold run at hrun
    rw [hvalid] at hrun
    dsimp only at hrun
    rw [hcounts] at hrun
    exact congrArg Prod.fst (Except.ok.inj hrun)
  have hverdict : a.levels.isEmpty = false ∧ a.optimal = 2 ∧ a.cliff = some 4 := by
    rw [← ha]
    decide +kernel
  obtain ⟨hsome, hoptimal, hcliff⟩ := hverdict
  obtain ⟨-, -, ⟨i, honly, -, hmarked⟩, -⟩ := htold (List.isEmpty_eq_false_iff.mp hsome)
  obtain ⟨j, honly', -, hij⟩ := hmarked 4 hcliff
  exact ⟨hvalid, a, log, hrun, hoptimal, hcliff, i, j, honly, honly', hij⟩

end Report

end Headroom
