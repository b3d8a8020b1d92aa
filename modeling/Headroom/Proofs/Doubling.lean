import Headroom.Proofs.Levels
import Mathlib.Algebra.Group.Int.Defs
import Mathlib.Algebra.Group.Nat.Defs
import Mathlib.Data.List.Range
import Mathlib.Data.Nat.Log
import Mathlib.Logic.Function.Iterate

/-!
# The search for thread counts

A run measures 1, 2, 4, … threads and at last the most threads. Two accounts of this list are given
and tied together.

* **`doublings_eq`**: the numbers before the last one are the powers of two up to the largest that
  does not exceed the most. What is said about the list of thread counts is read off this form.
* **`Search`**: the search round by round in 32-bit words, which wrap around. `Search.Keeps` says
  where it stands after a number of rounds; `keeps_round` is one round, `keeps_rounds` is all of
  them. The number that is up is never above the most, so it is never doubled past the end of the
  words, and the rounds are over after 31.
* **`search_enumerates`**: both together, for every word.
-/

namespace Headroom.Profile

/-! ## Powers of two -/

/-- Powers of two up to the largest that does not exceed the most. -/
def powers (most : Nat) : List Nat := (List.range (Nat.log 2 most + 1)).map (2 ^ ·)

theorem mem_powers {most n : Nat} (hmost : most ≠ 0) :
    n ∈ powers most ↔ n ≤ most ∧ ∃ k, n = 2 ^ k := by
  simp only [powers, List.mem_map, List.mem_range, Nat.lt_succ_iff,
    Nat.le_log_iff_pow_le Nat.one_lt_two hmost]
  constructor
  · rintro ⟨k, hk, rfl⟩
    exact ⟨hk, k, rfl⟩
  · rintro ⟨hle, k, rfl⟩
    exact ⟨k, hle, rfl⟩

theorem getLast?_powers (most : Nat) : (powers most).getLast? = some (2 ^ Nat.log 2 most) := by
  simp [powers, List.getLast?_range]

theorem head?_powers (most : Nat) : (powers most).head? = some 1 := by
  simp [powers, List.head?_range]

theorem isChain_powers (most : Nat) : (powers most).IsChain fun a b => b ≤ 2 * a := by
  rw [powers, List.isChain_map, List.isChain_range_succ]
  intro k _
  rw [Nat.pow_succ]
  omega

/-- Doubling from `n` up to the most, in closed form. Halving the most takes as many rounds as
doubling up to it. -/
theorem doublings_eq {most n : Nat} (hpos : 0 < n) (hle : n ≤ most) :
    doublings most n = (List.range (Nat.log 2 (most / n) + 1)).map (n * 2 ^ ·) := by
  fun_induction doublings most n with
  | case1 n h ih =>
    have htwice : 2 ≤ most / n := (Nat.le_div_iff_mul_le hpos).mpr (by omega)
    have hhalf : most / n / 2 = most / (2 * n) := by rw [Nat.div_div_eq_div_mul, Nat.mul_comm]
    rw [ih (by omega) (by omega), Nat.log_of_one_lt_of_le Nat.one_lt_two htwice, hhalf,
      List.range_succ_eq_map (n := _ + 1), List.map_cons, List.map_map]
    refine congrArg₂ _ (Nat.mul_one n).symm (List.map_congr_left fun k _ => ?_)
    show 2 * n * 2 ^ k = n * 2 ^ (k + 1)
    rw [Nat.pow_succ', ← Nat.mul_assoc, Nat.mul_comm 2 n]
  | case2 n h =>
    have honce : most / n < 2 := (Nat.div_lt_iff_lt_mul hpos).mpr (by omega)
    rw [Nat.log_of_lt honce]
    simp

theorem doublings_one {most : Nat} (hmost : 1 ≤ most) : doublings most 1 = powers most := by
  rw [doublings_eq Nat.one_pos hmost, Nat.div_one]
  simp [powers]

/-! ## The list of thread counts -/

theorem threadCounts_of_lt {most : Int} (h : most < 1) : threadCounts most = [] := if_pos h

/-- The most threads stand at the end of `threadCounts`, unless they are there already. -/
theorem threadCounts_eq {most : Nat} (h : 1 ≤ most) :
    threadCounts most = if 2 ^ Nat.log 2 most = most then powers most else powers most ++
      [most] := by
  have hmost : ¬(most : Int) < 1 := by omega
  unfold threadCounts
  rw [if_neg hmost, Int.toNat_natCast, doublings_one h]
  simp only [getLast?_powers, Option.some.injEq]

section
variable {most : Nat}

theorem head?_threadCounts (h : 1 ≤ most) : (threadCounts most).head? = some 1 := by
  rw [threadCounts_eq h]
  split
  · exact head?_powers most
  · rw [List.head?_append, head?_powers]
    rfl

theorem getLast?_threadCounts (h : 1 ≤ most) : (threadCounts most).getLast? = some most := by
  rw [threadCounts_eq h]
  split
  · next hpower => rw [getLast?_powers, hpower]
  · exact List.getLast?_concat

/-- The `threadCounts` are the `powers` of two up to the most, and the most itself. -/
theorem mem_threadCounts_iff (h : 1 ≤ most) {n : Nat} :
    n ∈ threadCounts most ↔ n = most ∨ n ≤ most ∧ ∃ k, n = 2 ^ k := by
  rw [threadCounts_eq h]
  split
  · next hpower =>
    rw [mem_powers (by omega)]
    refine ⟨.inr, ?_⟩
    rintro (rfl | hn)
    · exact ⟨Nat.le_refl n, _, hpower.symm⟩
    · exact hn
  · rw [List.mem_append, List.mem_singleton, mem_powers (by omega), or_comm]

/-- None of the `threadCounts` is more than twice the one before. The most threads are less than
twice the largest power of two. -/
theorem isChain_threadCounts (h : 1 ≤ most) : (threadCounts most).IsChain fun a b => b ≤ 2 * a := by
  rw [threadCounts_eq h]
  split
  · exact isChain_powers most
  · refine List.isChain_append.mpr ⟨isChain_powers most, List.isChain_singleton most, ?_⟩
    intro a ha b hb
    rw [getLast?_powers] at ha
    cases ha
    cases hb
    have hlt := Nat.lt_pow_succ_log_self Nat.one_lt_two most
    rw [Nat.pow_succ] at hlt
    omega

end

/-! ## The search in words -/

/-- A number is up, with the ones that were taken before it, or the search is over. -/
inductive Search
  | up (n : Int32) (taken : List Int32)
  | ended (taken : List Int32)
deriving Repr, DecidableEq

namespace Search

/-- A number that does not exceed the most is taken, and then doubled if it is not above half of the
most. Products wrap around. -/
def round (most : Int32) : Search → Search
  | up n taken =>
    if n ≤ most then
      if most / 2 < n then ended (taken ++ [n]) else up (n * 2) (taken ++ [n])
    else ended taken
  | ended taken => ended taken

/-- What was taken, with the most at the end unless it is the last one already. -/
def completed (most : Int32) (taken : List Int32) : List Int32 :=
  if taken.getLast? = some most then taken else taken ++ [most]

/-- Where the search stands after `k` rounds: it has taken the powers of two below the `k`th, which
is up, or all that do not exceed the most. -/
def Keeps (most k : Nat) : Search → Prop
  | up n taken =>
    n.toInt = (2 ^ k : Nat) ∧ 2 ^ k ≤ most ∧ taken.map Int32.toInt = (List.range k).map fun i =>
      ((2 ^ i : Nat) : Int)
  | ended taken => most < 2 ^ k ∧ taken.map Int32.toInt = (powers most).map Int.ofNat

variable {most : Int32} {m : Nat}

/-- A number that is not above half of the most is doubled without wrapping around. -/
theorem toInt_double {n : Int32} {k : Nat} (hm : most.toInt = m) (hn : n.toInt = (2 ^ k : Nat))
    (hle : 2 ^ (k + 1) ≤ m) : (n * 2).toInt = (2 ^ (k + 1) : Nat) := by
  have hmax := most.toInt_lt
  rw [Nat.pow_succ] at hle ⊢
  generalize 2 ^ k = p at hn hle ⊢
  rw [Int32.toInt_mul, hn, show (2 : Int32).toInt = 2 from rfl, Int.natCast_mul]
  exact Int.bmod_eq_of_le (by omega) (by omega)

/-- One round moves the search from the `k`th power to the next, or ends it. -/
theorem keeps_round {k : Nat} {s : Search} (hm : most.toInt = m) (h : Keeps m k s) :
    Keeps m (k + 1) (round most s) := by
  cases s with
  | ended taken =>
    refine ⟨?_, h.2⟩
    have := h.1
    rw [Nat.pow_succ]
    omega
  | up n taken =>
    obtain ⟨hn, hle, htaken⟩ := h
    have hup : n ≤ most := by
      rw [Int32.le_iff_toInt_le, hn, hm]
      exact_mod_cast hle
    have hmore : (taken ++ [n]).map Int32.toInt = (List.range (k + 1)).map fun i =>
        ((2 ^ i : Nat) : Int) := by
      rw [List.map_append, List.map_singleton, htaken, hn, List.range_succ, List.map_append,
        List.map_singleton]
    have hhalf : (most / 2).toInt = (m / 2 : Nat) := by
      rw [Int32.toInt_div_of_ne_right _ _ (by decide), hm]
      rfl
    rw [round, if_pos hup]
    split
    · next hlast =>
      -- half of the most is below the number, so the next power is above the most
      rw [Int32.lt_iff_toInt_lt, hhalf, hn, Int.ofNat_lt] at hlast
      have habove : m < 2 ^ (k + 1) := by
        rw [Nat.pow_succ]
        omega
      have hlog : Nat.log 2 m = k :=
        (Nat.log_eq_iff (.inr ⟨Nat.one_lt_two, by omega⟩)).mpr ⟨hle, habove⟩
      refine ⟨habove, ?_⟩
      rw [hmore, powers, hlog, List.map_map]
      rfl
    · next hmid =>
      rw [Int32.lt_iff_toInt_lt, hhalf, hn, Int.ofNat_lt] at hmid
      have hnext : 2 ^ (k + 1) ≤ m := by
        rw [Nat.pow_succ]
        omega
      exact ⟨toInt_double hm hn hnext, hnext, hmore⟩

theorem keeps_rounds (hm : most.toInt = m) (hpos : 1 ≤ m) (k : Nat) :
    Keeps m k ((round most)^[k] (.up 1 [])) := by
  induction k with
  | zero => exact ⟨rfl, hpos, rfl⟩
  | succ k ih =>
    rw [Function.iterate_succ_apply']
    exact keeps_round hm ih

/-- The search is over after 31 times `round`, since the powers of two outgrow the words. -/
theorem rounds_end (hm : most.toInt = m) (hpos : 1 ≤ m) :
    ∃ taken, (round most)^[31] (.up 1 []) = .ended taken := by
  have hkeeps := keeps_rounds hm hpos 31
  cases hlast : (round most)^[31] (.up 1 []) with
  | ended taken => exact ⟨taken, rfl⟩
  | up n taken =>
    rw [hlast] at hkeeps
    have hle := hkeeps.2.1
    have hmax := most.toInt_lt
    omega

/-- What the search has taken, with the most at the end, are the `threadCounts`. -/
theorem completed_eq {taken : List Int32} (hm : most.toInt = m) (hpos : 1 ≤ m)
    (htaken : taken.map Int32.toInt = (powers m).map Int.ofNat) :
    (completed most taken).map Int32.toInt = (threadCounts m).map Int.ofNat := by
  have hlast : taken.getLast? = some most ↔ 2 ^ Nat.log 2 m = m := by
    have hmap : taken.getLast?.map Int32.toInt = some ((2 ^ Nat.log 2 m : Nat) : Int) := by
      rw [← List.getLast?_map, htaken, List.getLast?_map, getLast?_powers]
      rfl
    obtain ⟨n, hn, hvalue⟩ := Option.map_eq_some_iff.mp hmap
    rw [hn, Option.some.injEq, ← Int32.toInt_inj, hvalue, hm]
    exact Int.ofNat_inj
  unfold completed
  rw [threadCounts_eq hpos]
  by_cases hpower : 2 ^ Nat.log 2 m = m
  · rw [if_pos (hlast.mpr hpower), if_pos hpower, htaken]
  · rw [if_neg (hlast.not.mpr hpower), if_neg hpower, List.map_append, List.map_append, htaken,
      List.map_singleton, hm]
    rfl

end Search

/-- **The exponential search.** Below one there are no thread counts. From one on the search in
words, `Search.round`, is over after at most 31 rounds, and with the most at the end it has
taken the thread counts. Until then the number that is up after some rounds is that power of
two, not a word that wrapped around, and does not exceed the most. The thread counts strictly
increase from one to the most; below the most they are the powers of two; and none is more than
twice the one before. -/
theorem search_enumerates (most : Int32) :
    (most < 1 → threadCounts most.toInt = []) ∧
      (1 ≤ most →
        (∃ rounds ≤ 31, ∃ taken, (Search.round most)^[rounds] (.up 1 []) = .ended taken ∧
          (Search.completed most taken).map Int32.toInt = (threadCounts most.toInt).map Int.ofNat) ∧
        (∀ rounds n taken, (Search.round most)^[rounds] (.up 1 []) = .up n taken →
          n.toInt = 2 ^ rounds ∧ n ≤ most) ∧
        (threadCounts most.toInt).Pairwise (· < ·) ∧
        (threadCounts most.toInt).head? = some 1 ∧
        (threadCounts most.toInt).getLast?.map Int.ofNat = some most.toInt ∧
        (∀ n : Nat, n < most.toInt → (n ∈ threadCounts most.toInt ↔ ∃ k, n = 2 ^ k)) ∧
        (threadCounts most.toInt).IsChain fun a b => b ≤ 2 * a) := by
  refine ⟨fun h => threadCounts_of_lt (Int32.lt_iff_toInt_lt.mp h), fun h => ?_⟩
  have hone : 1 ≤ most.toInt := Int32.le_iff_toInt_le.mp h
  -- the most is a word with a sign; as it is positive, it is a natural number
  obtain ⟨m, hm⟩ := Int.eq_ofNat_of_zero_le (show 0 ≤ most.toInt by omega)
  have hpos : 1 ≤ m := by omega
  rw [hm]
  refine ⟨?_, fun rounds n taken hup => ?_, threadCounts_increasing m, head?_threadCounts hpos, ?_,
    fun n hn => ?_, isChain_threadCounts hpos⟩
  · -- 31 rounds are enough, since the number that is up is `2 ^ 31` by then
    obtain ⟨taken, hover⟩ := Search.rounds_end hm hpos
    have hkeeps := Search.keeps_rounds hm hpos 31
    rw [hover] at hkeeps
    exact ⟨31, Nat.le_refl 31, taken, hover, Search.completed_eq hm hpos hkeeps.2⟩
  · have hkeeps := Search.keeps_rounds hm hpos rounds
    rw [hup] at hkeeps
    obtain ⟨hn, hle, -⟩ := hkeeps
    refine ⟨by exact_mod_cast hn, ?_⟩
    rw [Int32.le_iff_toInt_le, hn, hm]
    exact_mod_cast hle
  · rw [getLast?_threadCounts hpos]
    rfl
  · rw [mem_threadCounts_iff hpos, or_iff_right (show n ≠ m by omega),
      and_iff_right (show n ≤ m by omega)]

/-- The largest word is one less than a power of two that words do not reach. -/
theorem search_enumerates_largest :
    (1 : Int32) ≤ Int32.maxValue ∧
      (∃ rounds ≤ 31, ∃ taken, (Search.round Int32.maxValue)^[rounds] (.up 1 []) = .ended taken) ∧
      (threadCounts 2147483647).getLast?.map Int.ofNat = some 2147483647 ∧
      1073741824 ∈ threadCounts 2147483647 ∧ 1073741823 ∉ threadCounts 2147483647 ∧
      threadCounts 0 = [] := by
  have hone : (1 : Int32) ≤ Int32.maxValue := by decide
  obtain ⟨⟨rounds, hrounds, taken, hover, -⟩, -, -, -, hlast, hmem, -⟩ :=
    (search_enumerates Int32.maxValue).2 hone
  refine ⟨hone, ⟨rounds, hrounds, taken, hover⟩, hlast, (hmem 1073741824 (by decide)).mpr ⟨30, rfl⟩,
    ?_, (search_enumerates 0).1 (by decide)⟩
  intro h
  obtain ⟨k, hk⟩ := (hmem 1073741823 (by decide)).mp h
  cases k with
  | zero => cases hk
  | succ k =>
    rw [Nat.pow_succ] at hk
    omega

end Headroom.Profile
