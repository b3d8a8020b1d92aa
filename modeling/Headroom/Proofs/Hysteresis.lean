import Headroom.Scaling
import Mathlib.Algebra.Group.Int.Defs
import Mathlib.Algebra.Group.Nat.Defs

/-!
# Hysteresis of the scaling rule

A scaling rule keeps one number between two readings, the length of the run of low ones, in a word
of 32 bits. This module says what the rule does in terms of the whole history instead, which is a
list of turns: readings and resets.

* **`Turn`**, **`Rules.streakAfter`**, **`Rules.verdictAt?`**: a history, the run that it leaves
  behind and the verdict at each of its positions.
* **`Rules.toInt_streakAfter_take`**: in a history of less than `2 ^ 31` turns the word never wraps.
* **`Rules.le_streakAfter`**: the run is at least `n` long exactly if the last `n` turns are low
  readings none of which removed a worker. It is shown by induction over the history, and everything
  else follows from it.
* **`Rules.removal_ends_low_run`**: which readings add a worker and which remove one.
* **`Rules.idle_of_le_streakAfter`**, **`Rules.streakAfter_lt_of_spare`**,
  **`Rules.streakAfter_append_idle`**: a run outgrows the hysteresis only while nobody can be
  removed, and then until the word wraps.
-/

namespace Headroom.Scaling

/-- What happens to a scaling rule: it judges a reading while so many workers are active, or it
starts anew. -/
inductive Turn
  | look (e : Estimate Float) (active : Int)
  | reset

namespace Rules

variable {r : Rules} {h : List Turn} {k : Nat}

/-- The run of low readings after a turn: what `evaluate` leaves of it, and zero after a reset. -/
def turn (r : Rules) (streak : Int32) : Turn → Int32
  | .look e active => (r.evaluate streak e active).2
  | .reset => 0

/-- The run of low readings that a history leaves behind, as the word of 32 bits that the program
keeps. -/
def streakAfter (r : Rules) (h : List Turn) : Int32 := h.foldl r.turn 0

/-- The verdict at a position of a history, unless there is a reset. -/
def verdictAt? (r : Rules) (h : List Turn) (k : Nat) : Option Verdict :=
  match h[k]? with
  | some (.look e active) => some (r.evaluate (r.streakAfter (h.take k)) e active).1
  | _ => none

/-- A reading that can be acted on and is not high, as the two tests of `evaluate` have it. -/
def Low (r : Rules) (e : Estimate Float) : Prop :=
  e.sufficient = true ∧ ¬r.blockingThreshold ≤ e.beta

/-- Position `k` of a history is a low reading. -/
def LowAt (r : Rules) (h : List Turn) (k : Nat) : Prop :=
  ∃ e active, h[k]? = some (.look e active) ∧ r.Low e

/-- Position `k` of a history is a reading that removes a worker. -/
def DownAt (r : Rules) (h : List Turn) (k : Nat) : Prop :=
  ∃ v, r.verdictAt? h k = some v ∧ v.delta = -1

/-- The last `n` turns up to position `k`, which is one of them, are low readings, and none before
the last of them removed a worker. -/
def Run (r : Rules) (h : List Turn) (k n : Nat) : Prop :=
  n ≤ k + 1 ∧ ∀ i, k < i + n → i ≤ k → r.LowAt h i ∧ (i < k → ¬r.DownAt h i)

/-! ## One reading -/

/-- All that a rule can say about a reading, one case for each way through `evaluate`. -/
inductive Judged (r : Rules) (streak : Int32) (e : Estimate Float) (active : Int) :
    Verdict × Int32 → Prop
  | unsure (hfew : e.sufficient = false) : Judged r streak e active (.hold, 0)
  | up (henough : e.sufficient = true) (hhigh : r.blockingThreshold ≤ e.beta)
      (hroom : active < r.maxWorkers) :
      Judged r streak e active (⟨.up, 1⟩, 0)
  | atLimit (hhigh : r.blockingThreshold ≤ e.beta) (hlimit : ¬active < r.maxWorkers) :
      Judged r streak e active (.hold, 0)
  | down (hlow : r.Low e) (hlong : r.hysteresisTicks ≤ (streak + 1).toInt)
      (hspare : r.minWorkers < active) :
      Judged r streak e active (⟨.down, -1⟩, 0)
  | low (hlow : r.Low e)
      (hstays : ¬(r.hysteresisTicks ≤ (streak + 1).toInt ∧ r.minWorkers < active)) :
      Judged r streak e active (.hold, streak + 1)

theorem judged_evaluate (r : Rules) (streak : Int32) (e : Estimate Float) (active : Int) :
    Judged r streak e active (r.evaluate streak e active) := by
  unfold evaluate
  split
  · next hfew => exact .unsure (by simpa using hfew)
  · next henough =>
    have henough : e.sufficient = true := by simpa using henough
    split
    · next hhigh =>
      have hhigh : r.blockingThreshold ≤ e.beta := of_decide_eq_true hhigh
      split
      · next hroom => exact .up henough hhigh hroom
      · next hlimit => exact .atLimit hhigh hlimit
    · next hnot =>
      have hlow : r.Low e := ⟨henough, fun hhigh => hnot (decide_eq_true hhigh)⟩
      split
      · next hdown => exact .down hlow hdown.1 hdown.2
      · next hstays => exact .low hlow hstays

section

variable {streak : Int32} {e : Estimate Float} {active : Int} {v : Verdict × Int32}

theorem Judged.delta_cases (hj : Judged r streak e active v) :
    v.1.delta = -1 ∨ v.1.delta = 0 ∨ v.1.delta = 1 := by
  cases hj with
  | down => exact .inl rfl
  | unsure | atLimit | low => exact .inr (.inl rfl)
  | up => exact .inr (.inr rfl)

/-- A worker is added exactly for a reading that can be acted on, is high, and finds room
for one. -/
theorem Judged.up_iff (hj : Judged r streak e active v) :
    v.1.delta = 1 ↔ e.sufficient = true ∧ r.blockingThreshold ≤ e.beta ∧ active < r.maxWorkers := by
  cases hj with
  | unsure hfew => exact ⟨nofun, fun hup => absurd hup.1 (by simp [hfew])⟩
  | up henough hhigh hroom => exact ⟨fun _ => ⟨henough, hhigh, hroom⟩, fun _ => rfl⟩
  | atLimit _ hlimit => exact ⟨nofun, fun hup => absurd hup.2.2 hlimit⟩
  | down hlow | low hlow => exact ⟨nofun, fun hup => absurd hup.2.1 hlow.2⟩

/-- A worker is removed exactly for a low reading that makes the `streak` long enough, with a worker
to spare. -/
theorem Judged.down_iff (hj : Judged r streak e active v) :
    v.1.delta = -1 ↔ r.Low e ∧ r.hysteresisTicks ≤ (streak + 1).toInt ∧ r.minWorkers < active := by
  cases hj with
  | unsure hfew => exact ⟨nofun, fun hdown => absurd hdown.1.1 (by simp [hfew])⟩
  | up _ hhigh | atLimit hhigh => exact ⟨nofun, fun hdown => absurd hhigh hdown.1.2⟩
  | down hlow hlong hspare => exact ⟨fun _ => ⟨hlow, hlong, hspare⟩, fun _ => rfl⟩
  | low _ hstays => exact ⟨nofun, fun hdown => absurd hdown.2 hstays⟩

/-- The `streak` goes on with a low reading that removes nobody, and ends otherwise. -/
theorem Judged.streak_cases (hj : Judged r streak e active v) :
    (r.Low e ∧ v.1.delta ≠ -1) ∧ v.2 = streak + 1 ∨ ¬(r.Low e ∧ v.1.delta ≠ -1) ∧ v.2 = 0 := by
  cases hj with
  | unsure hfew => exact .inr ⟨fun hgoes => absurd hgoes.1.1 (by simp [hfew]), rfl⟩
  | up _ hhigh | atLimit hhigh => exact .inr ⟨fun hgoes => hgoes.1.2 hhigh, rfl⟩
  | down => exact .inr ⟨fun hgoes => hgoes.2 rfl, rfl⟩
  | low hlow => exact .inl ⟨⟨hlow, nofun⟩, rfl⟩

end

/-! ## One position of a history -/

theorem verdictAt?_look {e : Estimate Float} {active : Int} (hk : h[k]? = some (.look e active)) :
    r.verdictAt? h k = some (r.evaluate (r.streakAfter (h.take k)) e active).1 := by
  unfold verdictAt?
  rw [hk]

theorem lowAt_look {e : Estimate Float} {active : Int} (hk : h[k]? = some (.look e active)) :
    r.LowAt h k ↔ r.Low e := by
  unfold LowAt
  rw [hk]
  constructor
  · rintro ⟨_, _, heq, hlow⟩
    cases heq
    exact hlow
  · intro hlow
    exact ⟨e, active, rfl, hlow⟩

theorem downAt_look {e : Estimate Float} {active : Int} (hk : h[k]? = some (.look e active)) :
    r.DownAt h k ↔ (r.evaluate (r.streakAfter (h.take k)) e active).1.delta = -1 := by
  unfold DownAt
  rw [verdictAt?_look hk]
  simp

theorem DownAt.look (hdown : r.DownAt h k) : ∃ e active, h[k]? = some (.look e active) := by
  obtain ⟨v, hv, _⟩ := hdown
  unfold verdictAt? at hv
  split at hv
  · next e active hk => exact ⟨e, active, hk⟩
  · cases hv

/-! ## The run of low readings -/

theorem streakAfter_snoc (h : List Turn) (t : Turn) :
    r.streakAfter (h ++ [t]) = r.turn (r.streakAfter h) t := by
  unfold streakAfter
  rw [List.foldl_append]
  rfl

/-- A turn lengthens `streakAfter` exactly if it is a low reading that removes nobody. -/
theorem streakAfter_take_succ (hk : k < h.length) :
    (r.LowAt h k ∧ ¬r.DownAt h k) ∧ r.streakAfter (h.take (k + 1)) = r.streakAfter (h.take k) + 1 ∨
      ¬(r.LowAt h k ∧ ¬r.DownAt h k) ∧ r.streakAfter (h.take (k + 1)) = 0 := by
  have hget : h[k]? = some h[k] := List.getElem?_eq_getElem hk
  rw [List.take_succ_eq_append_getElem hk, streakAfter_snoc]
  cases hturn : h[k] with
  | reset =>
    rw [hturn] at hget
    refine .inr ⟨?_, rfl⟩
    rintro ⟨⟨e, active, hlook, _⟩, _⟩
    rw [hget] at hlook
    cases hlook
  | look e active =>
    rw [hturn] at hget
    rw [lowAt_look hget, downAt_look hget]
    exact (r.judged_evaluate (r.streakAfter (h.take k)) e active).streak_cases

/-- A run goes on without wrapping as long as the word has room for one more. -/
theorem toInt_succ {streak : Int32} (hroom : streak.toInt + 1 < 2 ^ 31) :
    (streak + 1).toInt = streak.toInt + 1 := by
  have hmin := streak.le_toInt
  rw [Int32.toInt_add, show (1 : Int32).toInt = 1 from rfl]
  exact Int.bmod_eq_of_le (by omega) (by omega)

/-- A run is no longer than its history, as long as the history is shorter than the word can count:
every turn adds one to it or ends it. -/
theorem toInt_streakAfter_take (hk : k ≤ h.length) (hshort : k < 2 ^ 31) :
    0 ≤ (r.streakAfter (h.take k)).toInt ∧ (r.streakAfter (h.take k)).toInt ≤ k := by
  induction k with
  | zero => exact ⟨Int.le_refl 0, Int.le_refl 0⟩
  | succ k ih =>
    obtain ⟨hnonneg, hle⟩ := ih (by omega) (by omega)
    rcases streakAfter_take_succ (r := r) (show k < h.length by omega) with ⟨_, hsucc⟩ | ⟨_, hzero⟩
    · rw [hsucc, toInt_succ (by omega)]
      omega
    · rw [hzero, Int32.toInt_zero]
      omega

/-- **The run in terms of the history.** The invariant of the induction over `k` is the statement
for every `n`: a turn that goes on with the run has the run of length `n - 1` before it. -/
theorem le_streakAfter (hk : k ≤ h.length) (hshort : k < 2 ^ 31) (n : Nat) :
    n ≤ (r.streakAfter (h.take k)).toInt ↔
      n ≤ k ∧ ∀ i, k ≤ i + n → i < k → r.LowAt h i ∧ ¬r.DownAt h i := by
  induction k generalizing n with
  | zero =>
    rw [List.take_zero, show r.streakAfter [] = 0 from rfl, Int32.toInt_zero]
    exact ⟨fun hn => ⟨by omega, fun i _ hi => absurd hi (Nat.not_lt_zero i)⟩, fun hn => by omega⟩
  | succ k ih =>
    cases n with
    | zero =>
      have hnonneg := (toInt_streakAfter_take (r := r) hk hshort).1
      exact ⟨fun _ => ⟨Nat.zero_le _, fun i hi hi' => by omega⟩, fun _ => hnonneg⟩
    | succ n =>
      have ih := ih (by omega) (by omega) n
      rcases streakAfter_take_succ (r := r) (show k < h.length by omega) with
        ⟨⟨hlow, hstays⟩, hsucc⟩ | ⟨hnot, hzero⟩
      · -- the turn at `k` is one of the run, the others are those before
        have hle := (toInt_streakAfter_take (r := r) (h := h) (k := k) (by omega) (by omega)).2
        rw [hsucc, toInt_succ (by omega), Int.natCast_succ, Int.add_le_add_iff_right, ih]
        constructor
        · rintro ⟨hn, hrun⟩
          refine ⟨by omega, fun i hi hi' => ?_⟩
          by_cases hik : i = k
          · subst hik
            exact ⟨hlow, hstays⟩
          · exact hrun i (by omega) (by omega)
        · rintro ⟨hn, hrun⟩
          exact ⟨by omega, fun i hi hi' => hrun i (by omega) (by omega)⟩
      · -- the turn at `k` ends every run, so none that is longer than zero ends there
        rw [hzero, Int32.toInt_zero]
        constructor
        · intro hn
          omega
        · rintro ⟨_, hrun⟩
          exact absurd (hrun k (by omega) (by omega)) hnot

/-- A reading removes a worker exactly if there is one to spare and a run of low readings long
enough ends with it (`Run`). -/
theorem downAt_iff (hticks : 1 ≤ r.hysteresisTicks) (hshort : h.length < 2 ^ 31)
    {e : Estimate Float} {active : Int} (hk : h[k]? = some (.look e active)) :
    r.DownAt h k ↔ r.minWorkers < active ∧ ∃ n : Nat, r.hysteresisTicks ≤ n ∧ r.Run h k n := by
  have hlt : k < h.length := (List.getElem?_eq_some_iff.mp hk).1
  have hle : k ≤ h.length := Nat.le_of_lt hlt
  obtain ⟨hnonneg, hmost⟩ := toInt_streakAfter_take (r := r) hle (by omega)
  have hiff := le_streakAfter (r := r) hle (by omega)
  rw [downAt_look hk, (r.judged_evaluate _ e active).down_iff, ← lowAt_look hk,
    toInt_succ (by omega)]
  constructor
  · rintro ⟨hlow, hlong, hspare⟩
    obtain ⟨n, hn⟩ := Int.eq_ofNat_of_zero_le hnonneg
    refine ⟨hspare, n + 1, by omega, ?_⟩
    obtain ⟨hbound, hrun⟩ := (hiff n).mp (by omega)
    refine ⟨by omega, fun i hi hik => ?_⟩
    by_cases hlast : i = k
    · subst hlast
      exact ⟨hlow, fun hlt => absurd hlt (Nat.lt_irrefl _)⟩
    · have hbefore := hrun i (by omega) (by omega)
      exact ⟨hbefore.1, fun _ => hbefore.2⟩
  · rintro ⟨hspare, n, hn, hbound, hrun⟩
    -- a run that is not empty ends with the reading at `k`, and one that is shorter by it came
    -- before
    have hlow := (hrun k (by omega) (Nat.le_refl k)).1
    have hbefore : (n - 1 : Nat) ≤ (r.streakAfter (h.take k)).toInt := by
      apply (hiff (n - 1)).mpr
      refine ⟨by omega, fun i hi hik => ?_⟩
      have hi := hrun i (by omega) (by omega)
      exact ⟨hi.1, hi.2 hik⟩
    exact ⟨hlow, by omega, hspare⟩

/-- What ends a `Run` keeps every later one shorter than the way back to it. -/
theorem Run.le_of_ended {n j : Nat} (hrun : r.Run h k n) (hj : j < k)
    (hends : ¬r.LowAt h j ∨ r.DownAt h j) :
    j + n ≤ k := by
  apply Nat.le_of_not_lt
  intro hlong
  obtain ⟨hlow, hstays⟩ := hrun.2 j hlong (Nat.le_of_lt hj)
  rcases hends with hnot | hdown
  · exact hnot hlow
  · exact hstays hj hdown

/-- **Hysteresis over whole histories.** In a history of less than `2 ^ 31` turns, every reading
adds a worker, removes one or does neither. It adds one exactly if it can be acted on, reaches
the threshold and finds the pool below its limit. It removes one exactly if there is one to spare
and it ends an unbroken run of at least `hysteresisTicks` low readings, without a reset among
them and without one before the last that removed a worker. So between two removals there is such
a run, which begins after the first of them. A turn that is no low reading starts the count anew,
and puts off the next removal by a whole run. After more turns the word that counts the run can
have wrapped. -/
theorem removal_ends_low_run (hticks : 1 ≤ r.hysteresisTicks) (h : List Turn)
    (hshort : h.length < 2 ^ 31) :
    (∀ k e active, h[k]? = some (.look e active) →
      ∃ v, r.verdictAt? h k = some v ∧ (v.delta = -1 ∨ v.delta = 0 ∨ v.delta = 1) ∧
        (v.delta = 1 ↔ e.sufficient = true ∧ r.blockingThreshold ≤ e.beta ∧ active < r.maxWorkers) ∧
        (v.delta = -1 ↔ r.minWorkers < active ∧ ∃ n : Nat, r.hysteresisTicks ≤ n ∧ r.Run h k n)) ∧
      (∀ j k, j < k → r.DownAt h j → r.DownAt h k →
        ∃ n : Nat, r.hysteresisTicks ≤ n ∧ j + n ≤ k ∧ ∀ i, k < i + n → i ≤ k → r.LowAt h i) ∧
      (∀ j, j < h.length → ¬r.LowAt h j →
        r.streakAfter (h.take (j + 1)) = 0 ∧ ∀ k, j < k → r.DownAt h k →
          j + r.hysteresisTicks ≤ k) := by
  refine ⟨fun k e active hk => ?_, fun j k hjk hfirst hsecond => ?_,
    fun j hj hends => ⟨?_, fun k hjk hdown => ?_⟩⟩
  · have hjudged := r.judged_evaluate (r.streakAfter (h.take k)) e active
    refine ⟨_, verdictAt?_look hk, hjudged.delta_cases, hjudged.up_iff, ?_⟩
    rw [← downAt_look hk]
    exact downAt_iff hticks hshort hk
  · obtain ⟨e, active, hk⟩ := hsecond.look
    obtain ⟨_, n, hn, hrun⟩ := (downAt_iff hticks hshort hk).mp hsecond
    exact ⟨n, hn, hrun.le_of_ended hjk (.inr hfirst), fun i hi hik => (hrun.2 i hi hik).1⟩
  · rcases streakAfter_take_succ (r := r) hj with ⟨hgoes, _⟩ | ⟨_, hzero⟩
    · exact absurd hgoes.1 hends
    · exact hzero
  · obtain ⟨e, active, hk⟩ := hdown.look
    obtain ⟨_, n, hn, hrun⟩ := (downAt_iff hticks hshort hk).mp hdown
    have hfar := hrun.le_of_ended hjk (.inl hends)
    omega

/-- A low reading, a high one, and two low ones, with two workers of which one is enough. -/
def wavering : List Turn :=
  [.look ⟨0.125, 9, 1, true⟩ 2, .look ⟨0.5, 9, 1, true⟩ 2, .look ⟨0.125, 9, 1, true⟩ 2,
    .look ⟨0.125, 9, 1, true⟩ 2]

/-- The high reading breaks the run, so that the last reading is the first to remove a worker. -/
theorem removal_ends_low_run_wavering :
    let r : Rules := { hysteresisTicks := 2, blockingThreshold := 0.25 }
    1 ≤ r.hysteresisTicks ∧ wavering.length < 2 ^ 31 ∧ ¬r.DownAt wavering 2 ∧
      r.DownAt wavering 3 := by
  intro r
  have hlow : r.Low ⟨0.125, 9, 1, true⟩ := ⟨rfl, by decide⟩
  have hhigh : ¬r.LowAt wavering 1 := by
    rintro ⟨e, active, hlook, hlow⟩
    cases hlook
    exact hlow.2 (by decide)
  obtain ⟨hverdicts, _, hbroken⟩ := removal_ends_low_run (r := r) (by decide) wavering (by decide)
  have hafter := (hbroken 1 (by decide) hhigh).2
  have hsecond : ¬r.DownAt wavering 2 :=
    fun hdown => absurd (hafter 2 (by decide) hdown) (by decide)
  refine ⟨by decide, by decide, hsecond, ?_⟩
  obtain ⟨v, hv, _, _, hdown⟩ := hverdicts 3 _ _ rfl
  refine ⟨v, hv, hdown.mpr ⟨by decide, 2, by decide, by decide, fun i hi hi3 => ?_⟩⟩
  have hcases : i = 2 ∨ i = 3 := by omega
  rcases hcases with rfl | rfl
  · exact ⟨⟨_, _, rfl, hlow⟩, fun _ => hsecond⟩
  · exact ⟨⟨_, _, rfl, hlow⟩, fun hlt => absurd hlt (by decide)⟩

/-! ## Runs that outgrow the hysteresis -/

/-- From the reading on that would have removed a worker, a run has only readings that find none to
spare. -/
theorem idle_of_le_streakAfter {n i : Nat} (hticks : 1 ≤ r.hysteresisTicks) (hk : k ≤ h.length)
    (hshort : k < 2 ^ 31) (hn : n ≤ (r.streakAfter (h.take k)).toInt)
    (hlong : k + r.hysteresisTicks ≤ i + n + 1) (hi : i < k) :
    ∃ e active, h[i]? = some (.look e active) ∧ active ≤ r.minWorkers := by
  obtain ⟨hbound, hrun⟩ := (le_streakAfter hk hshort n).mp hn
  obtain ⟨⟨e, active, hlook, hlow⟩, hstays⟩ := hrun i (by omega) hi
  have hbefore : (i + n - k : Nat) ≤ (r.streakAfter (h.take i)).toInt := by
    apply (le_streakAfter (by omega) (by omega) _).mpr
    exact ⟨by omega, fun j hj hji => hrun j (by omega) (by omega)⟩
  have hmost := (toInt_streakAfter_take (r := r) (h := h) (k := i) (by omega) (by omega)).2
  refine ⟨e, active, hlook, Int.not_lt.mp fun hspare => hstays ?_⟩
  rw [downAt_look hlook, (r.judged_evaluate _ e active).down_iff, toInt_succ (by omega)]
  exact ⟨hlow, by omega, hspare⟩

/-- While there is always a worker to spare, `streakAfter` stays shorter than the hysteresis. -/
theorem streakAfter_lt_of_spare (hticks : 1 ≤ r.hysteresisTicks) (hshort : h.length < 2 ^ 31)
    (hspare : ∀ e active, .look e active ∈ h → r.minWorkers < active) :
    (r.streakAfter h).toInt < r.hysteresisTicks := by
  apply Int.not_le.mp
  intro hle
  have htake : r.streakAfter (h.take h.length) = r.streakAfter h := by rw [List.take_length]
  obtain ⟨hnonneg, hmost⟩ := toInt_streakAfter_take (r := r) (Nat.le_refl h.length) hshort
  obtain ⟨n, hn⟩ := Int.eq_ofNat_of_zero_le hnonneg
  rw [htake] at hn hmost
  obtain ⟨e, active, hlook, hidle⟩ := idle_of_le_streakAfter (i := h.length - 1) (n := n) hticks
    (Nat.le_refl h.length) hshort (htake ▸ Int.le_of_eq hn.symm) (by omega) (by omega)
  exact Int.not_lt.mpr hidle (hspare e active (List.mem_of_getElem? hlook))

theorem turn_idle {e : Estimate Float} {active : Int} (hlow : r.Low e)
    (hidle : active ≤ r.minWorkers) (streak : Int32) :
    r.turn streak (.look e active) = streak + 1 := by
  have hjudged := r.judged_evaluate streak e active
  rcases hjudged.streak_cases with ⟨-, hsucc⟩ | ⟨hnot, -⟩
  · exact hsucc
  · refine absurd ⟨hlow, fun hdown => ?_⟩ hnot
    exact absurd (hjudged.down_iff.mp hdown).2.2 (Int.not_lt.mpr hidle)

/-- With no worker to spare every low reading lengthens the run, however long it is. Words wrap, so
this is how a run can become negative. -/
theorem streakAfter_append_idle {e : Estimate Float} {active : Int} (hlow : r.Low e)
    (hidle : active ≤ r.minWorkers) (h : List Turn) (n : Nat) :
    r.streakAfter (h ++ List.replicate n (.look e active)) = r.streakAfter h + Int32.ofNat n := by
  induction n with
  | zero =>
    rw [List.replicate_zero, List.append_nil, show Int32.ofNat 0 = 0 from rfl, Int32.add_zero]
  | succ n ih =>
    rw [List.replicate_succ', ← List.append_assoc, streakAfter_snoc, ih, turn_idle hlow hidle,
      Int32.add_assoc, Int32.ofNat_add]
    rfl

/-- A pool of one worker that is never busy counts until the word wraps. -/
example : ({} : Rules).streakAfter (List.replicate (2 ^ 31) (.look ⟨0.125, 9, 1, true⟩ 1)) =
    Int32.minValue := by
  have hlow : ({} : Rules).Low ⟨0.125, 9, 1, true⟩ := ⟨rfl, by decide⟩
  have hidle := streakAfter_append_idle hlow (show (1 : Int) ≤ 1 by decide) [] (2 ^ 31)
  rw [List.nil_append] at hidle
  exact hidle.trans (by decide)

end Rules

end Headroom.Scaling
