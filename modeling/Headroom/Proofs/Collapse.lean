import Headroom.Proofs.Cliffs
import Mathlib.Algebra.Order.Field.Basic
import Mathlib.Algebra.Order.Field.Rat
import Mathlib.Order.Bounds.Basic
import Mathlib.Tactic.NormNum
import Mathlib.Tactic.Ring

/-!
# Where throughput collapses

The analysis goes over the levels and keeps the best one so far. What it is meant to find is said
here without any such pass, for throughputs that are exact numbers.

* **`Drops`**: a level that has lost its share of the best throughput before it. `FirstDrop` is the
  first such level.
* **`Leads`**: the earliest of the levels with the highest throughput.
* **`findCliff_verdict`**: the search ends at the first drop, or at the end if there is none. What
  it carries along is the leading level of those that it has gone past.
* **`cliff_is_first_drop`**: cliff, severity and optimum of the analysis.
-/

namespace Headroom.Profile

variable {K : Type}

section
variable [LinearOrder K]

/-- The level is the earliest of those with the highest throughput. Ties go to fewer threads. -/
def Leads (best : Level K) (levels : List (Level K)) : Prop :=
  ∃ before after, levels = before ++ best :: after ∧
    (∀ l ∈ before, l.throughput < best.throughput) ∧
    ∀ l ∈ after, l.throughput ≤ best.throughput

namespace Leads

variable {best x : Level K} {levels : List (Level K)}

theorem singleton (x : Level K) : Leads x [x] := ⟨[], [], rfl, nofun, nofun⟩

theorem isGreatest (h : Leads best levels) :
    IsGreatest {t | ∃ l ∈ levels, l.throughput = t} best.throughput := by
  obtain ⟨before, after, rfl, hbefore, hafter⟩ := h
  refine ⟨⟨best, by simp, rfl⟩, ?_⟩
  rintro _ ⟨l, hl, rfl⟩
  rcases List.mem_append.mp hl with hl | hl
  · exact (hbefore l hl).le
  · rcases List.mem_cons.mp hl with rfl | hl
    · exact le_refl _
    · exact hafter l hl

/-- A further level takes the lead (`Leads`) only if it is better than all before. -/
theorem concat (h : Leads best levels) (x : Level K) :
    Leads (better best x) (levels ++ [x]) := by
  unfold better
  split
  · next hbetter =>
    refine ⟨levels, [], rfl, fun l hl => ?_, nofun⟩
    exact lt_of_le_of_lt (h.isGreatest.2 ⟨l, hl, rfl⟩) hbetter
  · next hworse =>
    obtain ⟨before, after, rfl, hbefore, hafter⟩ := h
    refine ⟨before, after ++ [x], by simp, hbefore, fun l hl => ?_⟩
    rcases List.mem_append.mp hl with hl | hl
    · exact hafter l hl
    · rw [List.mem_singleton.mp hl]
      exact not_lt.mp hworse

end Leads

end

variable [Field K] [LinearOrder K]

/-- The level at position `i` has lost the share `drop` of the best throughput before it. -/
structure Drops (drop : K) (levels : List (Level K)) (i : Nat) (l : Level K) (best : K) : Prop where
  level : levels[i]? = some l
  greatest : IsGreatest {t | ∃ m ∈ levels.take i, m.throughput = t} best
  positive : 0 < best
  lost : l.throughput ≤ best * (1 - drop)

/-- The level at position `i` drops, and no level before it does. -/
structure FirstDrop (drop : K) (levels : List (Level K)) (i : Nat) (l : Level K) (best : K) : Prop
    extends Drops drop levels i l best where
  first : ∀ j < i, ∀ m b, ¬Drops drop levels j m b

section
variable {drop : K} {levels levels' : List (Level K)} {i j : Nat} {l m : Level K} {b c : K}

theorem Drops.pos (h : Drops drop levels i l b) : 0 < i := by
  obtain ⟨_, hm, _⟩ := h.greatest.1
  by_contra hzero
  rw [Nat.eq_zero_of_not_pos hzero, List.take_zero] at hm
  cases hm

/-- Whether a level `Drops` depends on the levels up to it only. -/
theorem Drops.congr (hsame : levels.take (i + 1) = levels'.take (i + 1)) (hj : j ≤ i)
    (h : Drops drop levels j l b) : Drops drop levels' j l b := by
  have htake : levels.take j = levels'.take j := by
    have := congrArg (List.take j) hsame
    rwa [List.take_take, List.take_take, Nat.min_eq_left (by omega)] at this
  refine ⟨?_, htake ▸ h.greatest, h.positive, h.lost⟩
  rw [← List.getElem?_take_of_lt (show j < i + 1 by omega), ← hsame,
    List.getElem?_take_of_lt (by omega)]
  exact h.level

theorem FirstDrop.congr (hsame : levels.take (i + 1) = levels'.take (i + 1))
    (h : FirstDrop drop levels i l b) :
    FirstDrop drop levels' i l b :=
  ⟨h.toDrops.congr hsame (Nat.le_refl i), fun j hj m c hdrops =>
    h.first j hj m c (hdrops.congr hsame.symm (by omega))⟩

theorem FirstDrop.unique (h : FirstDrop drop levels i l b) (h' : FirstDrop drop levels j m c) :
    i = j ∧ l = m ∧ b = c := by
  obtain rfl : i = j := by
    rcases Nat.lt_trichotomy i j with hlt | heq | hgt
    · exact absurd h.toDrops (h'.first i hlt l b)
    · exact heq
    · exact absurd h'.toDrops (h.first j hgt m c)
  exact ⟨rfl, Option.some.inj (h.level.symm.trans h'.level), h.greatest.unique h'.greatest⟩

/-- The test of the search, `collapsed`, on the level that comes after those in front: it compares
with the level that leads them. -/
theorem drops_iff {best : Level K} {front rest : List (Level K)} (h : Leads best front) :
    Drops drop (front ++ l :: rest) front.length m b ↔
      m = l ∧ b = best.throughput ∧ collapsed drop best.throughput l.throughput = true := by
  have hlevel : (front ++ l :: rest)[front.length]? = some l := by simp
  have hgreatest := h.isGreatest
  have hcollapsed : collapsed drop best.throughput l.throughput = true ↔
      0 < best.throughput ∧ l.throughput ≤ best.throughput * (1 - drop) := by simp [collapsed]
  rw [hcollapsed]
  constructor
  · rintro ⟨hm, hb, hpos, hlost⟩
    rw [List.take_left] at hb
    obtain rfl := hb.unique hgreatest
    obtain rfl : l = m := Option.some.inj (hlevel.symm.trans hm)
    exact ⟨rfl, rfl, hpos, hlost⟩
  · rintro ⟨rfl, rfl, hpos, hlost⟩
    exact ⟨hlevel, by rwa [List.take_left], hpos, hlost⟩

end

/-! ## The search -/

/-- What the search for a cliff has to return: the level that leads those before the first drop and
the level that drops, or the level that leads all of them. -/
inductive Verdict (drop : K) (levels : List (Level K)) : Level K → Option (Level K) → Prop
  | cliff {i : Nat} {best l : Level K} (hfirst : FirstDrop drop levels i l best.throughput)
      (hleads : Leads best (levels.take i)) : Verdict drop levels best (some l)
  | none {best : Level K} (hnone : ∀ i l b, ¬Drops drop levels i l b) (hleads : Leads best levels) :
      Verdict drop levels best none

/-- The search goes on behind levels that do not drop, the best of which it knows. By induction on
`rest`, with what is in front generalised. -/
theorem findCliff_verdict {drop : K} {best : Level K} {front rest : List (Level K)}
    (hleads : Leads best front)
    (hfront : ∀ i < front.length, ∀ l b, ¬Drops drop (front ++ rest) i l b) :
    Verdict drop (front ++ rest) (findCliff drop best rest).1 (findCliff drop best rest).2 := by
  induction rest generalizing best front with
  | nil =>
    rw [List.append_nil] at hfront ⊢
    refine .none (fun i l b hdrops => ?_) hleads
    -- a level that drops is one of those that were looked at
    have hi : i < front.length := (List.getElem?_eq_some_iff.mp hdrops.level).1
    exact hfront i hi l b hdrops
  | cons l rest ih =>
    unfold findCliff
    split
    · next hcollapsed =>
      have hdrops : Drops drop (front ++ l :: rest) front.length l best.throughput :=
        (drops_iff hleads).mpr ⟨rfl, rfl, hcollapsed⟩
      exact .cliff ⟨hdrops, hfront⟩ (by rwa [List.take_left])
    · next hkept =>
      -- the level joins those that were looked at, since it does not drop itself
      have happend : front ++ l :: rest = (front ++ [l]) ++ rest := List.append_cons front l rest
      rw [happend] at hfront ⊢
      refine ih (hleads.concat l) fun i hi m b hdrops => ?_
      rw [List.length_append, List.length_singleton] at hi
      rcases Nat.lt_or_eq_of_le (Nat.le_of_lt_succ hi) with hlt | rfl
      · exact hfront i hlt m b hdrops
      · rw [← happend] at hdrops
        exact hkept ((drops_iff hleads).mp hdrops).2.2

/-- The share that is lost, `loss`, is not clamped: it lies between the share that counts as a drop
and all. -/
theorem loss_of_lost [IsStrictOrderedRing K] {drop best now : K} (hbest : 0 < best)
    (hnow : 0 ≤ now) (hdrop : 0 < drop) (hlost : now ≤ best * (1 - drop)) :
    loss best now = (best - now) / best ∧ drop ≤ (best - now) / best ∧ (best - now) / best ≤ 1 := by
  have hleast : drop ≤ (best - now) / best := by
    rw [le_div_iff₀ hbest]
    calc drop * best = best - best * (1 - drop) := by ring
      _ ≤ best - now := sub_le_sub_left hlost best
  have hmost : (best - now) / best ≤ 1 := by
    rw [div_le_one hbest]
    exact sub_le_self best hnow
  refine ⟨?_, hleast, hmost⟩
  unfold loss clamp
  rw [if_neg (not_lt.mpr (hdrop.le.trans hleast)), if_neg (not_lt.mpr hmost)]

/-- The analysis reports the `Verdict` on its levels. -/
theorem analyze_verdict {levels : List (Level K)} (hlevels : levels ≠ []) (complete : Bool)
    (drop : K) :
    ∃ best cliff, Verdict drop levels best cliff ∧
      analyze levels complete drop =
        { levels
          optimal := best.threads
          cliff := cliff.map Level.threads
          severity := (cliff.map fun l => loss best.throughput l.throughput).getD 0
          complete
          failure := none } := by
  cases levels with
  | nil => exact absurd rfl hlevels
  | cons first rest =>
    -- nothing stands before the first level, so it does not drop
    have hfirst : ∀ i < [first].length, ∀ l b, ¬Drops drop ([first] ++ rest) i l b := by
      intro i hi l b hdrops
      have := hdrops.pos
      rw [List.length_singleton] at hi
      omega
    exact ⟨_, _, findCliff_verdict (.singleton first) hfirst, analyze_cons first rest complete drop⟩

/-- Where there is a `FirstDrop`, the analysis reports it, with the share that is lost. -/
theorem FirstDrop.analyze {drop : K} {levels : List (Level K)} {i : Nat} {l : Level K} {b : K}
    (h : FirstDrop drop levels i l b) (complete : Bool) :
    (analyze levels complete drop).cliff = some l.threads ∧
      (analyze levels complete drop).severity = loss b l.throughput ∧
      ∃ best, Leads best (levels.take i) ∧
        (analyze levels complete drop).optimal = best.threads := by
  have hlevels : levels ≠ [] := List.ne_nil_of_mem (List.mem_of_getElem? h.level)
  obtain ⟨best, cliff, hverdict, hanalysis⟩ := analyze_verdict hlevels complete drop
  rw [hanalysis]
  cases hverdict with
  | none hnone => exact absurd h.toDrops (hnone i l b)
  | cliff hfirst hleads =>
    obtain ⟨rfl, rfl, rfl⟩ := h.unique hfirst
    exact ⟨rfl, rfl, best, hleads, rfl⟩

/-- What follows the `FirstDrop` has no influence on the analysis. -/
theorem FirstDrop.analyze_eq {drop : K} {levels levels' : List (Level K)} {i : Nat} {l : Level K}
    {b : K} (h : FirstDrop drop levels i l b) (hsame : levels'.take (i + 1) = levels.take (i + 1))
    (complete complete' : Bool) :
    Profile.analyze levels' complete' drop =
      { Profile.analyze levels complete drop with levels := levels', complete := complete' } := by
  have hfront : FirstDrop drop (levels.take (i + 1)) i l b :=
    h.congr (by rw [List.take_take, Nat.min_self])
  have hcliff := (hfront.analyze complete).1
  have hthis := analyze_append hcliff (levels.drop (i + 1)) complete
  have hother := analyze_append hcliff (levels'.drop (i + 1)) complete'
  rw [List.take_append_drop] at hthis
  rw [← hsame, List.take_append_drop, hsame] at hother
  rw [hthis, hother]

/-- **The analysis finds the first drop.** For levels with exact throughputs that are not negative,
and a positive share `drop`: the cliff is the thread count of the first level that has lost at least
this share of the best throughput before it, and is absent exactly if there is no such level; the
severity is the share that it has lost, between `drop` and 1, and 0 without a cliff; the optimum is
the thread count of the earliest of the best levels before the cliff, or of all levels if there is
none. The levels are returned as they are. Whatever is measured behind the cliff has no influence on
any of the three. -/
theorem cliff_is_first_drop [IsStrictOrderedRing K] {levels : List (Level K)} {drop : K}
    (hlevels : levels ≠ []) (hthroughput : ∀ l ∈ levels, 0 ≤ l.throughput) (hdrop : 0 < drop)
    (complete : Bool) :
    let a := analyze levels complete drop
    a.levels = levels ∧ (∀ k, a.cliff = some k ↔ ∃ i l b, FirstDrop drop levels i l b ∧
      l.threads = k) ∧
      (a.cliff = none ↔ ∀ i l b, ¬Drops drop levels i l b) ∧
      (∀ i l b, FirstDrop drop levels i l b →
        a.severity = (b - l.throughput) / b ∧ drop ≤ a.severity ∧ a.severity ≤ 1 ∧
          (∃ best, Leads best (levels.take i) ∧ a.optimal = best.threads) ∧
          ∀ levels' complete', levels'.take (i + 1) = levels.take (i + 1) →
            let a' := analyze levels' complete' drop
            a'.cliff = a.cliff ∧ a'.severity = a.severity ∧ a'.optimal = a.optimal) ∧
      (a.cliff = none → a.severity = 0 ∧ ∃ best, Leads best levels ∧ a.optimal = best.threads) := by
  intro a
  obtain ⟨best, cliff, hverdict, hanalysis⟩ := analyze_verdict hlevels complete drop
  have hcliff : a.cliff = cliff.map Level.threads := congrArg Analysis.cliff hanalysis
  refine ⟨levels_analyze levels complete drop, fun k => ⟨fun hk => ?_, ?_⟩, ?_, fun i l b hfirst =>
    ?_, fun hnone => ?_⟩
  · rw [hcliff] at hk
    cases hverdict with
    | none => cases hk
    | cliff hfirst => exact ⟨_, _, _, hfirst, Option.some.inj hk⟩
  · rintro ⟨i, l, b, hfirst, rfl⟩
    exact (hfirst.analyze complete).1
  · rw [hcliff, Option.map_eq_none_iff]
    cases hverdict with
    | none hnone => exact ⟨fun _ => hnone, fun _ => rfl⟩
    | cliff hfirst => exact ⟨nofun, fun hnone => absurd hfirst.toDrops (hnone _ _ _)⟩
  · obtain ⟨_, hseverity, hoptimal⟩ := hfirst.analyze complete
    have hl : l ∈ levels := List.mem_of_getElem? hfirst.level
    obtain ⟨hloss, hleast, hmost⟩ :=
      loss_of_lost hfirst.positive (hthroughput l hl) hdrop hfirst.lost
    have hshare : a.severity = (b - l.throughput) / b := hseverity.trans hloss
    refine ⟨hshare, hshare ▸ hleast, hshare ▸ hmost, hoptimal, fun levels' complete' hsame => ?_⟩
    rw [hfirst.analyze_eq hsame complete complete']
    exact ⟨rfl, rfl, rfl⟩
  · rw [hcliff] at hnone
    cases hverdict with
    | cliff => cases hnone
    | none _ hleads =>
      exact ⟨congrArg Analysis.severity hanalysis, best, hleads,
        congrArg Analysis.optimal hanalysis⟩

/-- A level of which only the throughput matters. -/
def measured (threads : Int) (throughput : ℚ) : Level ℚ := ⟨threads, throughput, 0, 0, 0, 0, 0⟩

/-- Two levels are equally good, the next declines too little, and the one after it just enough. The
last one is better than all of them. -/
def recovering : List (Level ℚ) :=
  [measured 1 100, measured 2 180, measured 4 180, measured 8 150, measured 16 144, measured 32 400]

theorem firstDrop_recovering : FirstDrop (1 / 5) recovering 4 (measured 16 144) 180 := by
  have hgreatest : ∀ l ∈ recovering.take 4, l.throughput ≤ 180 := by decide +kernel
  have hkept : ∀ j < 4, ∀ m ∈ recovering[j]?, ∀ l ∈ recovering.take j, ¬m.throughput ≤
      l.throughput * (1 - 1 / 5) := by
    decide +kernel
  refine ⟨⟨rfl, ⟨⟨measured 2 180, by simp [recovering], rfl⟩, ?_⟩, by norm_num, by
    norm_num [measured]⟩, ?_⟩
  · rintro _ ⟨l, hl, rfl⟩
    exact hgreatest l hl
  · rintro j hj m _ ⟨hm, ⟨⟨l, hl, rfl⟩, _⟩, _, hlost⟩
    exact hkept j hj m hm l hl hlost

theorem cliff_is_first_drop_recovering :
    FirstDrop (1 / 5) recovering 4 (measured 16 144) 180 ∧ (∀ l ∈ recovering, 0 ≤ l.throughput) ∧
      (analyze recovering true (1 / 5)).cliff = some 16 ∧
      (analyze recovering true (1 / 5)).severity = 1 / 5 ∧
      (analyze recovering true (1 / 5)).optimal = 2 ∧
      (analyze (recovering.take 5) true (1 / 5)).optimal =
      (analyze recovering true (1 / 5)).optimal := by
  have hpositive : ∀ l ∈ recovering, 0 ≤ l.throughput := by simp [recovering, measured]
  have hdrop : (0 : ℚ) < 1 / 5 := by norm_num
  obtain ⟨_, hcliff, _, hverdict, _⟩ :=
    cliff_is_first_drop (by simp [recovering]) hpositive hdrop true
  obtain ⟨hseverity, _, _, _, hbehind⟩ := hverdict 4 _ _ firstDrop_recovering
  obtain ⟨_, _, hsame⟩ := hbehind (recovering.take 5) true rfl
  refine ⟨firstDrop_recovering, hpositive, (hcliff 16).mpr ⟨4, _, _, firstDrop_recovering, rfl⟩,
    ?_, by decide +kernel, hsame⟩
  rw [hseverity]
  norm_num [measured]

end Headroom.Profile
