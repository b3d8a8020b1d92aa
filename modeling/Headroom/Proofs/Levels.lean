import Headroom.Profile.Run

/-!
# The levels of a profiling run

A run measures one level for each number of threads, and these numbers strictly increase
(`threadCounts_increasing`). What a level comes to is said here of its calls alone. A thread gets to
a call if the calls before it raise nothing and take less than the time of the level. Calls take
time, so the bound on their number is never what ends a thread: a level is measured iff no thread
gets to a call that raises a fault (`runLevel_cases`).
-/

namespace Headroom.Profile

/-! ### Thread counts -/

theorem le_of_mem_doublings {most n x : Nat} (hx : x ∈ doublings most n) : n ≤ x := by
  fun_induction doublings most n with
  | case1 n h ih =>
    cases hx with
    | head => omega
    | tail _ hx =>
      have := ih hx
      omega
  | case2 n h =>
    have := List.mem_singleton.mp hx
    omega

/-- Doubling goes up, so no number of threads is measured twice. -/
theorem doublings_increasing (most n : Nat) : (doublings most n).Pairwise (· < ·) := by
  fun_induction doublings most n with
  | case1 n h ih =>
    refine List.pairwise_cons.mpr ⟨?_, ih⟩
    intro x hx
    have := le_of_mem_doublings hx
    omega
  | case2 n h => exact List.pairwise_singleton _ n

theorem doublings_below {most n x : Nat} (hn : n ≤ most)
    (hlast : (doublings most n).getLast? ≠ some most) (hx : x ∈ doublings most n) : x < most := by
  fun_induction doublings most n with
  | case1 n h ih =>
    have hne : doublings most (2 * n) ≠ [] := by
      unfold doublings
      split <;> simp
    cases hx with
    | head => omega
    | tail _ hx =>
      rw [List.getLast?_cons_of_ne_nil hne] at hlast
      exact ih (by omega) hlast hx
  | case2 n h =>
    have := List.mem_singleton.mp hx
    have : n ≠ most := by simpa using hlast
    omega

/-- `threadCounts` go up, the last one included, which may be out of the sequence of doublings. -/
theorem threadCounts_increasing (most : Int) : (threadCounts most).Pairwise (· < ·) := by
  unfold threadCounts
  split
  · exact .nil
  · next hmost =>
    dsimp only
    split
    · exact doublings_increasing _ _
    · next hlast =>
      refine List.pairwise_append.mpr ⟨doublings_increasing _ _, List.pairwise_singleton _ _, ?_⟩
      intro x hx y hy
      rw [List.mem_singleton.mp hy]
      exact doublings_below (by omega) hlast hx

/-! ### One thread -/

/-- Calls take time, unless they raise a fault. Without this a thread would never use up
its time. -/
def Positive (calls : Nat → Call) : Prop := ∀ n time, calls n = .takes time → 0 < time

/-- The time that the first calls of a thread take together, unless one of them raises a fault. -/
def spent (calls : Nat → Call) : Nat → Option Int
  | 0 => some 0
  | n + 1 =>
    match spent calls n, calls n with
    | some total, .takes time => some (total + time)
    | _, _ => none

/-- A thread gets to a call if there is time left after the calls before it, none of which raised a
fault. -/
def Reached (calls : Nat → Call) (span : Int) (n : Nat) : Prop :=
  ∃ total, spent calls n = some total ∧ total < span

/-- A thread gets to a call that raises the fault `f` before its time is up. -/
def Raises (calls : Nat → Call) (span : Int) (f : Fault) : Prop :=
  ∃ n, Reached calls span n ∧ calls n = .raises f

section
variable {calls : Nat → Call} {span : Int} {f : Fault}

theorem spent_succ {n : Nat} {total time : Int} (hspent : spent calls n = some total)
    (hcall : calls n = .takes time) : spent calls (n + 1) = some (total + time) := by
  unfold spent
  rw [hspent, hcall]

theorem spent_pred {n : Nat} {total : Int} (h : spent calls (n + 1) = some total) :
    ∃ before time, spent calls n = some before ∧ calls n = .takes time ∧ total = before + time := by
  unfold spent at h
  split at h
  · next before time hbefore hcall =>
    cases h
    exact ⟨before, time, hbefore, hcall, rfl⟩
  · cases h

theorem spent_mono (hpos : Positive calls) {n m : Nat} (hle : n ≤ m) {total : Int}
    (h : spent calls m = some total) : ∃ before, spent calls n = some before ∧ before ≤ total := by
  induction hle generalizing total with
  | refl => exact ⟨total, h, Int.le_refl _⟩
  | step _ ih =>
    obtain ⟨middle, time, hmiddle, hcall, rfl⟩ := spent_pred h
    obtain ⟨before, hbefore, hle⟩ := ih hmiddle
    have := hpos _ _ hcall
    exact ⟨before, hbefore, by omega⟩

theorem not_reached_of_raises (hpos : Positive calls) {n m : Nat} (hcall : calls n = .raises f)
    (hlt : n < m) :
    ¬Reached calls span m := by
  rintro ⟨total, htotal, -⟩
  obtain ⟨_, hnext, -⟩ := spent_mono hpos hlt htotal
  obtain ⟨_, _, -, htakes, -⟩ := spent_pred hnext
  rw [hcall] at htakes
  cases htakes

theorem not_reached_of_le (hpos : Positive calls) {n m : Nat} {total : Int}
    (hspent : spent calls n = some total) (hup : span ≤ total) (hle : n ≤ m) :
    ¬Reached calls span m := by
  rintro ⟨later, hlater, hlt⟩
  obtain ⟨before, hbefore, _⟩ := spent_mono hpos hle hlater
  rw [hspent] at hbefore
  cases hbefore
  omega

/-- The loop of a thread ends with a fault exactly if it gets to a call that raises it. The fuel
covers the time that is left, and each call takes some of it, so fuel never ends the calls. -/
theorem callUntil_eq_error_iff (hpos : Positive calls) (fuel n : Nat) (t : Thread)
    (hspent : spent calls n = some t.elapsed) (hfuel : span ≤ t.elapsed + fuel) :
    callUntil calls span fuel n t = .error f ↔ ∃ m, n ≤ m ∧ Reached calls span m ∧
      calls m = .raises f := by
  induction fuel generalizing n t with
  | zero =>
    refine ⟨(by intro h; cases h), ?_⟩
    -- the fuel is enough for the span, so the time is up
    rintro ⟨m, hle, hreached, -⟩
    exact absurd hreached (not_reached_of_le hpos hspent (by omega) hle)
  | succ fuel ih =>
    unfold callUntil
    split
    · next hup =>
      refine ⟨(by intro h; cases h), ?_⟩
      rintro ⟨m, hle, hreached, -⟩
      exact absurd hreached (not_reached_of_le hpos hspent hup hle)
    · next hleft =>
      split
      · next g hcall =>
        constructor
        · intro h
          cases h
          exact ⟨n, Nat.le_refl n, ⟨t.elapsed, hspent, by omega⟩, hcall⟩
        · rintro ⟨m, hle, hreached, hraises⟩
          -- no call is made after one that raises a fault
          rcases Nat.lt_or_eq_of_le hle with hlt | rfl
          · exact absurd hreached (not_reached_of_raises hpos hcall hlt)
          · rw [hcall] at hraises
            cases hraises
            rfl
      · next time hcall =>
        have htime := hpos n time hcall
        rw [ih (n + 1) ⟨t.elapsed + time, t.latencies.add time⟩ (spent_succ hspent hcall)
          (by show span ≤ t.elapsed + time + fuel; omega)]
        constructor
        · rintro ⟨m, hle, h⟩
          exact ⟨m, by omega, h⟩
        · rintro ⟨m, hle, hreached, hraises⟩
          -- a call that takes time is not the one that raises
          rcases Nat.lt_or_eq_of_le hle with hlt | rfl
          · exact ⟨m, hlt, hreached, hraises⟩
          · rw [hcall] at hraises
            cases hraises

/-- A thread ends with a fault exactly if it `Raises` that fault. -/
theorem runThread_eq_error_iff (hpos : Positive calls) (capacity number : Nat) :
    runThread calls span capacity number = .error f ↔ Raises calls span f := by
  unfold runThread
  rw [callUntil_eq_error_iff hpos span.toNat 0 _ (by rfl)
    (by show span ≤ 0 + (span.toNat : Int); omega)]
  simp [Raises]

end

/-! ### One level -/

/-- A loop over threads ends with all their results, or with the fault of one of them. -/
theorem mapM_cases {α β ε : Type} (g : α → Except ε β) (xs : List α) :
    (∃ ys, xs.mapM g = .ok ys ∧ xs.map g = ys.map .ok) ∨ ∃ e, xs.mapM g = .error e ∧
      ∃ x ∈ xs, g x = .error e := by
  induction xs with
  | nil => exact .inl ⟨[], rfl, rfl⟩
  | cons x xs ih =>
    rw [List.mapM_cons, List.map_cons]
    cases hx : g x with
    | error e => exact .inr ⟨e, rfl, x, List.mem_cons_self, hx⟩
    | ok y =>
      show (∃ ys, (xs.mapM g >>= fun zs => pure (y :: zs)) = .ok ys ∧ _) ∨
        ∃ e, (xs.mapM g >>= fun zs => pure (y :: zs)) = .error e ∧ _
      rcases ih with ⟨ys, hys, hmap⟩ | ⟨e, he, z, hz, hgz⟩
      · rw [hys, hmap]
        exact .inl ⟨y :: ys, rfl, rfl⟩
      · rw [he]
        exact .inr ⟨e, rfl, z, List.mem_cons_of_mem x hz, hgz⟩

theorem threads_of_runLevel {calls : Nat → Nat → Call} {threads : Nat} {span : Int}
    {capacity : Nat} {l : Level Float} (h : runLevel calls threads span capacity = .ok l) :
    l.threads = threads := by
  unfold runLevel at h
  rcases mapM_cases (fun number => runThread (calls number) span capacity number)
    (List.range threads) with
    ⟨ts, hts, hmap⟩ | ⟨f, hf, -⟩
  · rw [hts] at h
    cases h
    have hlength := congrArg List.length hmap
    rw [List.length_map, List.length_range, List.length_map] at hlength
    show (ts.length : Int) = threads
    omega
  · rw [hf] at h
    cases h

/-- A level is measured if no thread `Raises` a fault; else it fails with one such fault. -/
theorem runLevel_cases {calls : Nat → Nat → Call} (hpos : ∀ thread, Positive (calls thread))
    (threads : Nat) (span : Int) (capacity : Nat) :
    (∃ l, runLevel calls threads span capacity = .ok l ∧ l.threads = threads ∧
      ∀ thread < threads, ∀ f, ¬Raises (calls thread) span f) ∨
    ∃ f, runLevel calls threads span capacity = .error f ∧ ∃ thread < threads,
      Raises (calls thread) span f := by
  rcases mapM_cases (fun number => runThread (calls number) span capacity number)
    (List.range threads) with
    ⟨ts, hts, hmap⟩ | ⟨f, hf, thread, hmem, hthread⟩
  · have hlevel : runLevel calls threads span capacity = .ok (Level.ofThreads ts) := by
      unfold runLevel
      rw [hts]
      rfl
    refine .inl ⟨Level.ofThreads ts, hlevel, threads_of_runLevel hlevel, ?_⟩
    intro thread hthread f hraises
    have hmem : runThread (calls thread) span capacity thread ∈ ts.map Except.ok := by
      rw [← hmap]
      exact List.mem_map.mpr ⟨thread, List.mem_range.mpr hthread, rfl⟩
    obtain ⟨t, -, ht⟩ := List.mem_map.mp hmem
    rw [(runThread_eq_error_iff (hpos thread) capacity thread).mpr hraises] at ht
    cases ht
  · refine .inr ⟨f, by unfold runLevel; rw [hf]; rfl, thread, List.mem_range.mp hmem, ?_⟩
    exact (runThread_eq_error_iff (hpos thread) capacity thread).mp hthread

end Headroom.Profile
