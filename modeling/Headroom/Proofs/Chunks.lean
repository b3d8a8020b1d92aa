import Headroom.Proofs.Capping
import Headroom.Proofs.Comparison
import Headroom.Proofs.Magnitudes
import Mathlib.Tactic.IntervalCases

/-!
# The speedup that is expected without a measurement

The rule divides a batch into chunks of a hundredth of it, and expects a speedup of as many threads
as there are chunks, up to four. A hundredth of at least four items is never more than a fourth of
them, so the size of the chunks does not matter in the end.

* **`Veto.heuristicSpeedup_eq`**: with exact fractions the rule is the smaller of four and the
  number of items.
* **`Veto.heuristicSpeedup_eq_natCast`**: rounding changes nothing about it, for a batch of any
  size.
* **`speedup_ignores_chunks`**: what follows for the batches of a pool.
-/

namespace Headroom

namespace Veto

/-- At least four items make at least four chunks, since a chunk is a hundredth of them. -/
theorem four_mul_chunk_le {n : Nat} (hn : 4 ≤ n) : 4 * max 1 (n / 100) ≤ n := by
  omega

/-! ## Exact fractions -/

section Exact

variable {K : Type} [Field K] [LinearOrder K] [IsStrictOrderedRing K]

/-- `heuristicSpeedup` in exact arithmetic: the number of items, up to four. -/
theorem heuristicSpeedup_eq (n : Nat) : (heuristicSpeedup n : K) = ((min 4 n : Nat) : K) := by
  have hchunk : (if ((1 : Nat) : K) < ((n / 100 : Nat) : K) then ((n / 100 : Nat) : K)
      else ((1 : Nat) : K)) =
        ((max 1 (n / 100) : Nat) : K) := by
    rw [Nat.cast_max, max_def_lt]
  have hpos : (0 : K) < ((max 1 (n / 100) : Nat) : K) := Nat.cast_pos.mpr (by omega)
  unfold heuristicSpeedup
  dsimp only
  rw [hchunk]
  by_cases hfew : n < 4
  · have hwhole : max 1 (n / 100) = 1 := by omega
    rw [hwhole, Nat.cast_one, div_one, if_pos (Nat.cast_lt.mpr hfew),
      Nat.min_eq_right (Nat.le_of_lt hfew)]
    split
    · next hzero => rw [hzero]
    · rfl
  · have hfour : ¬(n : K) / ((max 1 (n / 100) : Nat) : K) < ((4 : Nat) : K) := by
      rw [not_lt, le_div_iff₀ hpos, ← Nat.cast_mul, Nat.cast_le]
      exact four_mul_chunk_le (Nat.le_of_not_lt hfew)
    rw [if_neg (by omega), if_neg hfour, Nat.min_eq_left (Nat.le_of_not_lt hfew)]

theorem heuristicSpeedup_mono : Monotone (heuristicSpeedup : Nat → K) := by
  intro m n hmn
  rw [heuristicSpeedup_eq, heuristicSpeedup_eq, Nat.cast_le]
  omega

end Exact

/-! ## Doubles -/

open Rounding Float.Model

/-- The chunks of a batch that is too large for a double are infinitely many, or their number is
none. -/
theorem not_div_lt_of_infinite {x y : Float} (hx : x.toModel.unpack = .infinity .positive)
    (hy : Unsigned y) (z : Float) : ¬x / y < z := by
  rw [lt_iff_unpacked]
  show ¬UnpackedFloat.lt (Float.Model.pack
    (UnpackedFloat.div Format.binary64 x.toModel.unpack y.toModel.unpack)).unpack
    z.toModel.unpack = true
  rw [hx, unpack_pack (canonical_div _ _ rfl hy)]
  unfold Unsigned at hy
  generalize y.toModel.unpack = v at hy ⊢
  rcases v with s | _ | s | ⟨s, m, e, hm⟩
  · exact Bool.false_ne_true
  · exact Bool.false_ne_true
  · cases hy
    exact Bool.eq_false_iff.mp (not_infinity_lt _)
  · cases hy
    exact Bool.eq_false_iff.mp (not_infinity_lt _)

/-- With doubles, too, at least four items make at least four chunks. The items have three bits more
than the size of a chunk, so the bounds of `From.div` by powers of two are enough in spite of
rounding. -/
theorem not_chunks_lt_four {n : Nat} (hn : 4 ≤ n) :
    ¬(n : Float) /
        (if ((1 : Nat) : Float) < ((n / 100 : Nat) : Float) then ((n / 100 : Nat) : Float)
          else ((1 : Nat) : Float)) <
      ((4 : Nat) : Float) := by
  have hfour : UpTo 2 ((4 : Nat) : Float) := upTo_natCast (j := 2) (by decide) (by decide)
  split
  · next hone =>
    have hq : n / 100 ≠ 0 := by
      intro hzero
      rw [hzero] at hone
      exact absurd hone (by decide)
    by_cases hlarge : 2 ^ 1024 ≤ n
    · exact not_div_lt_of_infinite (from_natCast hlarge).eq_infinity (unsigned_natCast _) _
    · -- the number of items has at least three bits more than the size of a chunk
      have hlow := Nat.log2_self_le hq
      have hhigh := Nat.lt_log2_self (n := n / 100)
      have hlog : (n / 100).log2 < 1023 := by
        rw [Nat.log2_lt hq]
        omega
      have hchunk : UpTo ((n / 100).log2 + 1 : Nat) ((n / 100 : Nat) : Float) :=
        upTo_natCast (Nat.le_of_lt hhigh) hlog
      have hitems : From ((n / 100).log2 + 3 : Nat) (n : Float) := by
        apply from_natCast
        rw [Nat.pow_add]
        omega
      have hchunks := hitems.div hchunk (by omega)
      rw [show (((n / 100).log2 + 3 : Nat) : Int) - ((n / 100).log2 + 1 : Nat) = 2 by omega]
        at hchunks
      exact not_lt_of_from hchunks hfour
  · -- a chunk is one item, so there are as many chunks as items
    have hitems : From 2 (n : Float) := from_natCast (j := 2) hn
    have hchunk : UpTo 0 ((1 : Nat) : Float) := upTo_natCast (j := 0) (by decide) (by decide)
    exact not_lt_of_from (hitems.div hchunk (by decide)) hfour

/-- With doubles `heuristicSpeedup` is that of exact arithmetic, converted: rounding makes no
difference. -/
theorem heuristicSpeedup_eq_natCast (n : Nat) :
    (heuristicSpeedup n : Float) = ((min 4 n : Nat) : Float) := by
  by_cases hfew : n < 4
  · interval_cases n <;> rfl
  · have hn : 4 ≤ n := Nat.le_of_not_lt hfew
    unfold heuristicSpeedup
    dsimp only
    rw [if_neg (by omega), if_neg (not_chunks_lt_four hn), Nat.min_eq_left hn]

/-! ## Batches -/

/-- When a batch is vetoed for its speedup: it is large enough, and promises less than the least. -/
theorem reasonFor_eq_lowSpeedup_iff (policy : Policy Float) (items : Nat) (speedup : Float)
    (beta : Estimate Float) (cliff : Option Int) (threads : Int) :
    reasonFor policy items speedup beta cliff threads = .lowSpeedup ↔
      policy.minItems ≤ items ∧ speedup < policy.minSpeedup := by
  unfold reasonFor
  by_cases hitems : items < policy.minItems
  · rw [if_pos hitems]
    exact ⟨nofun, fun h => absurd hitems (Nat.not_lt.mpr h.1)⟩
  · rw [if_neg hitems]
    by_cases hspeedup : speedup < policy.minSpeedup
    · rw [if_pos hspeedup]
      exact ⟨fun _ => ⟨Nat.not_lt.mp hitems, hspeedup⟩, fun _ => rfl⟩
    · rw [if_neg hspeedup]
      refine ⟨fun h => ?_, fun h => absurd h.2 hspeedup⟩
      split at h
      · cases h
      · split at h <;> cases h

/-- **The size of the chunks does not matter.** The speedup that is expected without a measurement,
`heuristicSpeedup`, is the smaller of four and the number of items, so it does not fall when items
are added. With doubles it is the same number. A batch without an estimate of its own is therefore
rejected for its speedup exactly if it has enough items and the limit is above that number. This
does not happen if the limit is at most four and fewer than four items are not enough. -/
theorem speedup_ignores_chunks :
    (∀ n : Nat, (heuristicSpeedup n : ℚ) = min 4 (n : ℚ)) ∧ Monotone (heuristicSpeedup : Nat → ℚ) ∧
    (∀ n : Nat, (heuristicSpeedup n : Float) = ((min 4 n : Nat) : Float)) ∧
    ∀ {α : Type} (s : Simulation α) (policy : Policy Float) (cliff : Option Int)
      (plan : Simulation.Plan) (pause : Int)
      (bodies : List (Pool.Result α)),
      let d := (s.safeMap policy none cliff plan pause bodies).2.1
      (d.reason = .lowSpeedup ↔
        policy.minItems ≤ bodies.length ∧
          ((min 4 bodies.length : Nat) : Float) < policy.minSpeedup) ∧
      (policy.minSpeedup ≤ 4.0 → 4 ≤ policy.minItems → d.reason ≠ .lowSpeedup) := by
  refine ⟨fun n => ?_, heuristicSpeedup_mono, heuristicSpeedup_eq_natCast, ?_⟩
  · rw [heuristicSpeedup_eq, Nat.cast_min, Nat.cast_ofNat]
  · intro α s policy cliff plan pause bodies d
    have hreason : d.reason = .lowSpeedup ↔
        policy.minItems ≤ bodies.length ∧ ((min 4 bodies.length : Nat) : Float) <
          policy.minSpeedup := by
      show (s.safeMap policy none cliff plan pause bodies).2.1.reason = _ ↔ _
      rw [s.decision_safeMap, ← heuristicSpeedup_eq_natCast]
      exact reasonFor_eq_lowSpeedup_iff ..
    refine ⟨hreason, fun hlimit hitems hlow => ?_⟩
    obtain ⟨hmany, hbelow⟩ := hreason.mp hlow
    rw [Nat.min_eq_left (Nat.le_trans hitems hmany)] at hbelow
    exact Doubles.not_lt_iff.mpr (.inl hlimit) hbelow

/-- Four items reach a limit of four. Three do not, where they are enough. -/
theorem speedup_ignores_chunks_atLimits :
    let s : Simulation Nat :=
      ⟨⟨⟨[]⟩, ⟨[]⟩, 4, true, []⟩, 0, .scripted .ok, Pool.create {} 0, 0, 0, [], #[], []⟩
    (4.0 : Float) ≤ 4.0 ∧ 4 ≤ 4 ∧
    (s.safeMap ⟨4, 4.0, none⟩ none none {} 0 [.ok 1, .ok 2, .ok 3, .ok 4]).2.1.reason ≠
      .lowSpeedup ∧
    (s.safeMap ⟨3, 4.0, none⟩ none none {} 0 [.ok 1, .ok 2, .ok 3]).2.1.reason = .lowSpeedup := by
  intro s
  have hbatches := speedup_ignores_chunks.2.2.2 s
  refine ⟨by decide, by decide, ?_, ?_⟩
  · exact (hbatches ⟨4, 4.0, none⟩ none {} 0 [.ok 1, .ok 2, .ok 3, .ok 4]).2 (by decide) (by decide)
  · exact (hbatches ⟨3, 4.0, none⟩ none {} 0 [.ok 1, .ok 2, .ok 3]).1.mpr (by decide)

end Veto

end Headroom
