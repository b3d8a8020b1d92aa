import Headroom.Latency.Quantile
import Headroom.Proofs.Uniformity
import Mathlib.Algebra.Order.BigOperators.Group.List
import Mathlib.Algebra.Order.Field.Basic
import Mathlib.Algebra.Order.Field.Rat
import Mathlib.Data.List.Permutation
import Mathlib.Data.List.Sort
import Mathlib.Data.Rat.Floor
import Mathlib.Tactic.Linarith
import Mathlib.Tactic.Ring

/-!
# The quantile of several reservoirs

The scan walks the kept values in order and adds up weights until the target is passed. What it
finds is said without the scan: with exact fractions it is the smallest kept value up to which more
than the target weighs, else the largest one (`IsQuantile`). There is only one such value
(`IsQuantile.unique`), and neither side of its definition knows an order, so no order that the scan
goes by matters: of the reservoirs, of the values in them, or of equal values.

* **`reach_isQuantile`**: the step from one value to the next, summed up over the walk.
* **`merged_isQuantile`**: the same for reservoirs.
* **`merged_is_weighted_quantile`**: this, and what follows from it.

That the result is a kept value, and grows with the target, holds with doubles too (`reach_mem`,
`reach_le_reach`).
-/

namespace Headroom.Quantile

/-! ## The walk, in any arithmetic -/

section

variable {α : Type} [Add α] [LT α] [DecidableLT α]

theorem reach_mem (target sum : α) (last : Int) (entries : List (Int × α)) :
    reach target sum last entries ∈ last :: entries.map Prod.fst := by
  induction entries generalizing sum last with
  | nil => exact List.mem_singleton.mpr rfl
  | cons e rest ih =>
    obtain ⟨v, w⟩ := e
    rw [reach]
    split
    · exact List.mem_cons_of_mem _ List.mem_cons_self
    · exact List.mem_cons_of_mem _ (ih (sum + w) v)

/-- A higher target is reached by `reach` no earlier, whatever the sums come to. The sums need not
be exact for this, so it holds with doubles as well. -/
theorem reach_le_reach {target target' : α} (hle : ∀ x, target' < x → target < x) (sum : α)
    (last : Int) {entries : List (Int × α)} (hsorted : entries.Pairwise (·.1 ≤ ·.1)) :
    reach target sum last entries ≤ reach target' sum last entries := by
  induction entries generalizing sum last with
  | nil => exact Int.le_refl last
  | cons e rest ih =>
    obtain ⟨v, w⟩ := e
    obtain ⟨hhead, hrest⟩ := List.pairwise_cons.mp hsorted
    rw [reach, reach]
    by_cases hlow : target < sum + w
    · rw [if_pos hlow]
      split
      · exact Int.le_refl v
      · rcases List.mem_cons.mp (reach_mem target' (sum + w) v rest) with heq | hmem
        · exact Int.le_of_eq heq.symm
        · obtain ⟨e, he, heq⟩ := List.mem_map.mp hmem
          exact heq ▸ hhead e he
    · rw [if_neg hlow, if_neg fun hhigh => hlow (hle _ hhigh)]
      exact ih (sum + w) v hrest

end

section

variable {α : Type} [NatCast α] [Div α]

/-- The entries in the order in which the quantile walks them: by value, each with the weight of its
reservoir. -/
def ordered (parts : List Kept) : List (Int × α) := (weighted parts).mergeSort fun a b => a.1 ≤ b.1

theorem ordered_perm (parts : List Kept) : (ordered parts : List (Int × α)).Perm (weighted parts) :=
  List.mergeSort_perm ..

theorem pairwise_ordered (parts : List Kept) :
    (ordered parts : List (Int × α)).Pairwise (·.1 ≤ ·.1) := by
  refine (List.pairwise_mergeSort ?_ ?_ (weighted parts)).imp fun h => of_decide_eq_true h
  · intro a b c hab hbc
    have := of_decide_eq_true hab
    have := of_decide_eq_true hbc
    exact decide_eq_true (by omega)
  · intro a b
    simp only [Bool.or_eq_true, decide_eq_true_eq]
    omega

/-- The values with a weight are those that some reservoir keeps. -/
theorem mem_weighted {parts : List Kept} {v : Int} :
    v ∈ (weighted parts : List (Int × α)).map Prod.fst ↔ ∃ k ∈ parts, v ∈ k.values := by
  simp [weighted, List.mem_flatMap]

theorem ordered_ne_nil {parts : List Kept} (hsome : ∃ k ∈ parts, k.values ≠ #[]) :
    (ordered parts : List (Int × α)) ≠ [] := by
  intro hnil
  obtain ⟨k, hk, hne⟩ := hsome
  obtain ⟨v, hv⟩ := Array.exists_mem_of_ne_empty _ hne
  have hmem := mem_weighted (α := α).mpr ⟨k, hk, hv⟩
  rw [← ((ordered_perm parts).map Prod.fst).mem_iff, hnil] at hmem
  exact List.not_mem_nil hmem

variable [Add α] [Mul α] [LT α] [DecidableLT α]

/-- The quantile is a walk, `reach`, over the ordered entries up to a share of the total. -/
theorem merged_eq_reach (parts : List Kept) (q : α) :
    merged parts q = reach (q * total parts) ((0 : Nat) : α) 0 (ordered parts) := rfl

/-- With anything kept, the quantile is one of the kept values. -/
theorem merged_mem {parts : List Kept} (hsome : ∃ k ∈ parts, k.values ≠ #[]) (q : α) :
    ∃ k ∈ parts, merged parts q ∈ k.values := by
  have hne := ordered_ne_nil (α := α) hsome
  rw [← mem_weighted (α := α), ← ((ordered_perm parts).map Prod.fst).mem_iff, merged_eq_reach]
  cases hentries : (ordered parts : List (Int × α)) with
  | nil => exact absurd hentries hne
  | cons e rest =>
    rw [reach, List.map_cons]
    split
    · exact List.mem_cons_self
    · exact reach_mem _ _ _ rest

/-- The quantile grows with `q`, as far as the targets do. -/
theorem merged_le_merged {parts : List Kept} {q q' : α}
    (hle : ∀ x, q' * total parts < x → q * total parts < x) :
    merged parts q ≤ merged parts q' :=
  reach_le_reach hle _ _ (pairwise_ordered parts)

end

/-! ## What a quantile is -/

/-- Of the kept values, the smallest one up to which more than the target weighs, or the largest if
there is none. This says what a quantile is without walking. -/
def IsQuantile (kept : Set Int) (upTo : Int → ℚ) (target : ℚ) (v : Int) : Prop :=
  IsLeast {u ∈ kept | target < upTo u} v ∨ (∀ u ∈ kept, upTo u ≤ target) ∧ IsGreatest kept v

/-- Only one value is a quantile (`IsQuantile`), so any two ways to compute it agree. -/
theorem IsQuantile.unique {kept : Set Int} {upTo : Int → ℚ} {target : ℚ} {v v' : Int}
    (h : IsQuantile kept upTo target v) (h' : IsQuantile kept upTo target v') : v = v' := by
  rcases h with hleast | ⟨hnone, hgreatest⟩ <;> rcases h' with hleast' | ⟨hnone', hgreatest'⟩
  · exact hleast.unique hleast'
  · exact absurd hleast.1.2 (hnone' v hleast.1.1).not_gt
  · exact absurd hleast'.1.2 (hnone v' hleast'.1.1).not_gt
  · exact hgreatest.unique hgreatest'

/-- The weight of the entries up to the value `v`. -/
def upTo (entries : List (Int × ℚ)) (v : Int) : ℚ := ((entries.filter (·.1 ≤ v)).map Prod.snd).sum

theorem upTo_cons_of_le {e : Int × ℚ} {v : Int} (hle : e.1 ≤ v) (rest : List (Int × ℚ)) :
    upTo (e :: rest) v = e.2 + upTo rest v := by
  simp [upTo, hle]

theorem upTo_append (l l' : List (Int × ℚ)) (v : Int) :
    upTo (l ++ l') v = upTo l v + upTo l' v := by
  simp [upTo]

theorem upTo_perm {l l' : List (Int × ℚ)} (h : l.Perm l') : upTo l = upTo l' :=
  funext fun _ => ((h.filter _).map _).sum_eq

theorem upTo_nonneg {entries : List (Int × ℚ)} (hweights : ∀ e ∈ entries, 0 ≤ e.2) (v : Int) :
    0 ≤ upTo entries v := by
  refine List.sum_nonneg fun w hw => ?_
  obtain ⟨e, he, rfl⟩ := List.mem_map.mp hw
  exact hweights e (List.mem_of_mem_filter he)

theorem upTo_eq_zero {entries : List (Int × ℚ)} {v : Int} (h : ∀ e ∈ entries, v < e.1) :
    upTo entries v = 0 := by
  have hnone : entries.filter (fun e => decide (e.1 ≤ v)) = [] :=
    List.filter_eq_nil_iff.mpr fun e he => by simpa using h e he
  rw [upTo, hnone]
  rfl

/-- **The walk finds the quantile** of the entries that are left, for what is left of the target. -/
theorem reach_isQuantile (target : ℚ) {entries : List (Int × ℚ)} (hne : entries ≠ [])
    (hsorted : entries.Pairwise (·.1 ≤ ·.1)) (hweights : ∀ e ∈ entries, 0 ≤ e.2) (sum : ℚ)
    (last : Int) :
    IsQuantile {u | u ∈ entries.map Prod.fst} (upTo entries) (target - sum)
      (reach target sum last entries) := by
  induction entries generalizing sum last with
  | nil => exact absurd rfl hne
  | cons e rest ih =>
    obtain ⟨v, w⟩ := e
    obtain ⟨hhead, hrest⟩ := List.pairwise_cons.mp hsorted
    have hfirst : ∀ u ∈ rest.map Prod.fst, v ≤ u := by
      intro u hu
      obtain ⟨e, he, rfl⟩ := List.mem_map.mp hu
      exact hhead e he
    have hlater : ∀ e ∈ rest, 0 ≤ e.2 := fun e he => hweights e (List.mem_cons_of_mem _ he)
    have hstep : ∀ u, v ≤ u → upTo ((v, w) :: rest) u = w + upTo rest u :=
      fun u hu => upTo_cons_of_le hu rest
    -- the first value weighs what it adds alone, unless it comes again
    have halone : v ∉ rest.map Prod.fst → upTo ((v, w) :: rest) v = w := by
      intro hnot
      rw [hstep v le_rfl, upTo_eq_zero fun e he => ?_, add_zero]
      exact lt_of_le_of_ne (hhead e he) fun heq => hnot (List.mem_map.mpr ⟨e, he, heq.symm⟩)
    rw [reach]
    split
    · next hover =>
      refine .inl ⟨⟨List.mem_cons_self, ?_⟩, fun u hu => ?_⟩
      · have := upTo_nonneg hlater v
        rw [hstep v le_rfl]
        linarith
      · rcases List.mem_cons.mp hu.1 with rfl | hu
        · exact le_rfl
        · exact hfirst u hu
    · next hunder =>
      have hleft : w ≤ target - sum := by linarith
      rcases eq_or_ne rest [] with rfl | hne
      · refine .inr ⟨fun u hu => ?_, List.mem_cons_self, fun u hu => ?_⟩
        · obtain rfl : u = v := List.mem_singleton.mp hu
          exact (halone List.not_mem_nil).trans_le hleft
        · exact le_of_eq (List.mem_singleton.mp hu)
      · rcases ih hne hrest hlater (sum + w) v with ⟨⟨hmem, hover⟩, hleast⟩ | ⟨hnone, hmem,
          hgreatest⟩
        · refine .inl ⟨⟨List.mem_cons_of_mem _ hmem, ?_⟩, ?_⟩
          · rw [hstep _ (hfirst _ hmem)]
            linarith
          · rintro u ⟨hu, huover⟩
            by_cases hagain : u ∈ rest.map Prod.fst
            · rw [hstep u (hfirst u hagain)] at huover
              exact hleast ⟨hagain, by linarith⟩
            · obtain rfl : u = v := (List.mem_cons.mp hu).resolve_right hagain
              exact absurd huover ((halone hagain).trans_le hleft).not_gt
        · refine .inr ⟨fun u hu => ?_, List.mem_cons_of_mem _ hmem, fun u hu => ?_⟩
          · by_cases hagain : u ∈ rest.map Prod.fst
            · have := hnone u hagain
              rw [hstep u (hfirst u hagain)]
              linarith
            · obtain rfl : u = v := (List.mem_cons.mp hu).resolve_right hagain
              exact (halone hagain).trans_le hleft
          · rcases List.mem_cons.mp hu with rfl | hu
            · exact hfirst _ hmem
            · exact hgreatest hu

/-- The order of equal values does not matter: both walks find the quantile, and there is one. -/
theorem reach_eq_of_perm {l l' : List (Int × ℚ)} (hperm : l.Perm l') (hl : l.Pairwise (·.1 ≤ ·.1))
    (hl' : l'.Pairwise (·.1 ≤ ·.1)) (hweights : ∀ e ∈ l, 0 ≤ e.2) (target sum : ℚ) (last : Int) :
    reach target sum last l = reach target sum last l' := by
  rcases eq_or_ne l [] with rfl | hne
  · rw [hperm.nil_eq]
  · have hne' : l' ≠ [] := fun h => hne (h ▸ hperm).eq_nil
    have hweights' : ∀ e ∈ l', 0 ≤ e.2 := fun e he => hweights e (hperm.mem_iff.mpr he)
    have hquantile := reach_isQuantile target hne' hl' hweights' sum last
    have hkept : {u | u ∈ l'.map Prod.fst} = {u | u ∈ l.map Prod.fst} := Set.ext fun u =>
      (hperm.map _).mem_iff.symm
    rw [hkept, ← upTo_perm hperm] at hquantile
    exact (reach_isQuantile target hne hl hweights sum last).unique hquantile

/-! ## Reservoirs -/

/-- What the kept values up to `v` stand for: each for its equal part of what was put into its
reservoir. -/
def weightUpTo (parts : List Kept) (v : Int) : ℚ :=
  (parts.map fun k => k.values.toList.countP (· ≤ v) * ((k.seen : ℚ) / k.values.size)).sum

theorem upTo_map (values : List Int) (w : ℚ) (v : Int) :
    upTo (values.map (·, w)) v = values.countP (· ≤ v) * w := by
  induction values with
  | nil => simp [upTo]
  | cons u rest ih =>
    by_cases hu : u ≤ v
    · rw [List.map_cons, upTo_cons_of_le hu, ih, List.countP_cons_of_pos (by simpa using hu)]
      push_cast
      ring
    · have hskip : upTo ((u, w) :: rest.map (·, w)) v = upTo (rest.map (·, w)) v := by
        simp [upTo, hu]
      rw [List.map_cons, hskip, ih, List.countP_cons_of_neg (by simpa using hu)]

theorem upTo_weighted (parts : List Kept) : upTo (weighted parts) = weightUpTo parts := by
  funext v
  induction parts with
  | nil => rfl
  | cons k rest ih =>
    have hweighted :
        weighted (k :: rest) = k.values.toList.map (·, (weight k : ℚ)) ++ weighted rest := rfl
    rw [hweighted, upTo_append, upTo_map, ih]
    exact List.sum_cons.symm

theorem weight_nonneg {parts : List Kept} : ∀ e ∈ (weighted parts : List (Int × ℚ)), 0 ≤ e.2 := by
  intro e he
  obtain ⟨k, -, hk⟩ := List.mem_flatMap.mp he
  obtain ⟨v, -, rfl⟩ := List.mem_map.mp hk
  exact div_nonneg (Nat.cast_nonneg _) (Nat.cast_nonneg _)

/-- The total weight, `total`, is the number of values that were put in, whatever part of them was
kept. -/
theorem total_eq_sum (parts : List Kept) :
    (total parts : ℚ) = (((parts.filter fun k => !k.values.isEmpty).map Kept.seen).sum : ℕ) := by
  have hsum (ks : List Kept) :
      ks.foldl (fun sum k => sum + (k.seen : ℚ)) 0 = (ks.map fun k => (k.seen : ℚ)).sum := by
    rw [List.sum_eq_foldl, List.foldl_map]
  rw [total, Nat.cast_zero, hsum, Nat.cast_list_sum, List.map_map]
  rfl

/-- What `merged` computes is the quantile (`IsQuantile`), in exact arithmetic. -/
theorem merged_isQuantile {parts : List Kept} (hsome : ∃ k ∈ parts, k.values ≠ #[]) (q : ℚ) :
    IsQuantile {v | ∃ k ∈ parts, v ∈ k.values} (weightUpTo parts) (q * total parts)
      (merged parts q) := by
  have hperm := ordered_perm (α := ℚ) parts
  have hweights : ∀ e ∈ (ordered parts : List (Int × ℚ)), 0 ≤ e.2 :=
    fun e he => weight_nonneg e (hperm.mem_iff.mp he)
  have hquantile := reach_isQuantile (q * total parts) (ordered_ne_nil hsome)
    (pairwise_ordered parts) hweights
    ((0 : Nat) : ℚ) 0
  have hkept : {u | u ∈ (ordered parts : List (Int × ℚ)).map Prod.fst} =
      {v | ∃ k ∈ parts, v ∈ k.values} :=
    Set.ext fun u => (hperm.map _).mem_iff.trans mem_weighted
  rw [hkept, upTo_perm hperm, upTo_weighted] at hquantile
  rwa [Nat.cast_zero, sub_zero] at hquantile

/-- With nothing kept there is nothing to walk, and the answer is 0. -/
theorem merged_of_empty {parts : List Kept} (hempty : ∀ k ∈ parts, k.values = #[]) (q : ℚ) :
    merged parts q = 0 := by
  have hnil : (weighted parts : List (Int × ℚ)) = [] := by
    refine List.flatMap_eq_nil_iff.mpr fun k hk => ?_
    rw [hempty k hk]
    rfl
  rw [merged, hnil, List.mergeSort_nil, reach]

/-! ## Order does not matter -/

/-- Reservoirs with the same contents in another order: first the reservoirs, then the values in
each. -/
def Rearranged (parts parts' : List Kept) : Prop :=
  ∃ moved, parts.Perm moved ∧
    List.Forall₂ (fun k k' => k.seen = k'.seen ∧ k.values.toList.Perm k'.values.toList) moved parts'

namespace Rearranged

variable {parts parts' : List Kept}

theorem weighted_perm (h : Rearranged parts parts') :
    (weighted parts' : List (Int × ℚ)).Perm (weighted parts) := by
  obtain ⟨moved, hmoved, hsame⟩ := h
  refine List.Perm.trans ?_ (hmoved.symm.flatMap_right _)
  clear hmoved
  induction hsame with
  | nil => exact .nil
  | @cons k k' moved parts' hk _ ih =>
    obtain ⟨hseen, hvalues⟩ := hk
    have hsize : k.values.size = k'.values.size := hvalues.length_eq
    have hweight : (weight k' : ℚ) = weight k := by rw [weight, weight, hseen, hsize]
    have hhead : (k'.values.toList.map (·, (weight k' : ℚ))).Perm
        (k.values.toList.map (·, weight k)) := by
      rw [hweight]
      exact hvalues.symm.map _
    exact hhead.append ih

theorem total_eq (h : Rearranged parts parts') : (total parts' : ℚ) = total parts := by
  obtain ⟨moved, hmoved, hsame⟩ := h
  rw [total_eq_sum, total_eq_sum, ((hmoved.filter _).map _).sum_eq]
  clear hmoved
  congr 1
  induction hsame with
  | nil => rfl
  | @cons k k' moved parts' hk _ ih =>
    obtain ⟨hseen, hvalues⟩ := hk
    have hempty : k'.values.isEmpty = k.values.isEmpty := by
      have hsize : k.values.size = k'.values.size := hvalues.length_eq
      rw [Array.isEmpty, Array.isEmpty, hsize]
    rw [List.filter_cons, List.filter_cons, hempty]
    split
    · rw [List.map_cons, List.map_cons, List.sum_cons, List.sum_cons, hseen, ih]
    · exact ih

end Rearranged

theorem reach_eq_merged {parts : List Kept} {order : List (Int × ℚ)}
    (hperm : order.Perm (weighted parts)) (hsorted : order.Pairwise (·.1 ≤ ·.1)) (q : ℚ) :
    reach (q * total parts) 0 0 order = merged parts q := by
  rw [merged_eq_reach, Nat.cast_zero]
  exact reach_eq_of_perm (hperm.trans (ordered_perm parts).symm) hsorted (pairwise_ordered parts)
    (fun e he => weight_nonneg e (hperm.mem_iff.mp he)) _ _ _

/-- No order matters to the quantile: `Rearranged` reservoirs have the same entries up to their
order, and `reach_eq_of_perm` does the rest. -/
theorem merged_of_rearranged {parts parts' : List Kept} (h : Rearranged parts parts') (q : ℚ) :
    merged parts' q = merged parts q := by
  rw [← reach_eq_merged ((ordered_perm parts').trans h.weighted_perm) (pairwise_ordered parts'),
    merged_eq_reach, Nat.cast_zero, h.total_eq]

/-! ## Ranks -/

/-- In a sorted list the value at a rank is at most `u` iff more values than the rank are. -/
theorem lt_countP_iff {sorted : List Int} (hsorted : sorted.Pairwise (· ≤ ·)) {rank : Nat}
    (hrank : rank < sorted.length) (u : Int) : rank < sorted.countP (· ≤ u) ↔ sorted[rank] ≤ u := by
  induction sorted generalizing rank with
  | nil => exact absurd hrank (Nat.not_lt_zero rank)
  | cons v rest ih =>
    obtain ⟨hhead, hrest⟩ := List.pairwise_cons.mp hsorted
    by_cases hv : v ≤ u
    · rw [List.countP_cons_of_pos (by simpa using hv)]
      cases rank with
      | zero => simpa using hv
      | succ rank => simpa using ih hrest (Nat.lt_of_succ_lt_succ hrank)
    · have hlater : ∀ x ∈ v :: rest, ¬x ≤ u := by
        intro x hx
        rcases List.mem_cons.mp hx with rfl | hx
        · exact hv
        · exact fun hxu => hv ((hhead x hx).trans hxu)
      rw [List.countP_eq_zero.mpr fun x hx => by simpa using hlater x hx]
      exact iff_of_false (Nat.not_lt_zero rank) (hlater _ (List.getElem_mem hrank))

/-- With equal weights the quantile is found by its rank: below the last rank the strict comparison
with the target is one of counts, and above it the target is too high for every value. -/
theorem isQuantile_of_rank {values sorted : List Int} (hperm : sorted.Perm values)
    (hsorted : sorted.Pairwise (· ≤ ·)) {target : ℚ} (htarget : 0 ≤ target)
    (hrank : min ⌊target⌋₊ (values.length - 1) < sorted.length) :
    IsQuantile {v | v ∈ values} (fun v => values.countP (· ≤ v)) target
      sorted[min ⌊target⌋₊ (values.length - 1)] := by
  have hcount : ∀ v, values.countP (· ≤ v) = sorted.countP (· ≤ v) :=
    fun v => (hperm.countP_eq _).symm
  have hlength := hperm.length_eq
  have hmem : sorted[min ⌊target⌋₊ (values.length - 1)] ∈ values :=
    hperm.mem_iff.mp (List.getElem_mem hrank)
  by_cases hbelow : ⌊target⌋₊ < values.length
  · have hmin : min ⌊target⌋₊ (values.length - 1) = ⌊target⌋₊ := by omega
    have hover : ∀ u, target < (values.countP (· ≤ u) : ℚ) ↔
        sorted[min ⌊target⌋₊ (values.length - 1)] ≤ u := by
      intro u
      rw [← Nat.floor_lt htarget, hcount, ← lt_countP_iff hsorted hrank, hmin]
    exact .inl ⟨⟨hmem, (hover _).mpr le_rfl⟩, fun u hu => (hover u).mp hu.2⟩
  · have hall : (values.length : ℚ) ≤ target := (Nat.le_floor_iff htarget).mp (not_lt.mp hbelow)
    refine .inr ⟨fun u _ => ?_, hmem, fun u hu => ?_⟩
    · exact (Nat.cast_le.mpr List.countP_le_length).trans hall
    · obtain ⟨i, hi, rfl⟩ := List.getElem_of_mem (hperm.mem_iff.mpr hu)
      exact hsorted.sortedLE.getElem_le_getElem_of_le (by omega)

/-! ## Reservoirs that were filled -/

/-- What a reservoir was made with, its capacity and its seed, and what was put into it. -/
structure Intake where
  capacity : Nat
  seed : UInt64
  values : List Int

namespace Intake

/-- What the reservoir keeps of its intake. -/
def kept (i : Intake) : Kept := ((Reservoir.create i.capacity i.seed).addAll i.values).kept

/-- There was room for all values, so each of them was kept and stands for itself. -/
def Fits (i : Intake) : Prop := i.values.length ≤ i.kept.capacity

theorem sampled_kept (i : Intake) : Kept.Sampled i.values i.kept := by
  rw [kept, Reservoir.kept_addAll]
  exact Kept.sampled_addAll ..

theorem capacity_kept (i : Intake) : i.kept.capacity = max i.capacity 1 := by
  rw [kept, Reservoir.kept_addAll, Kept.capacity_addAll]

theorem size_kept_eq_zero_iff (i : Intake) : i.kept.values.size = 0 ↔ i.values = [] := by
  have hsize := i.sampled_kept.size
  have hcapacity := i.capacity_kept
  rw [← List.length_eq_zero_iff]
  omega

theorem total_kept (intakes : List Intake) :
    (total (intakes.map kept) : ℚ) = ((intakes.flatMap values).length : ℕ) := by
  rw [total_eq_sum]
  congr 1
  induction intakes with
  | nil => rfl
  | cons i rest ih =>
    rw [List.map_cons, List.filter_cons, List.flatMap_cons, List.length_append]
    split
    · rw [List.map_cons, List.sum_cons, ih, i.sampled_kept.seen]
    · next hempty =>
      have hnil : i.values = [] :=
        i.size_kept_eq_zero_iff.mp (by simpa [Array.isEmpty] using hempty)
      rw [ih, hnil, List.length_nil, Nat.zero_add]

theorem mem_kept {i : Intake} {v : Int} (h : v ∈ i.kept.values) : v ∈ i.values := by
  obtain ⟨position, hdrawn⟩ := i.sampled_kept.drawn
  obtain ⟨slot, hslot, rfl⟩ := Array.getElem_of_mem h
  exact hdrawn.holds ⟨slot, hslot⟩ ▸ List.getElem_mem _

/-- Each value of a reservoir that had room for all stands for itself. -/
theorem weightUpTo_kept {intakes : List Intake} (hfits : ∀ i ∈ intakes, i.Fits) (v : Int) :
    weightUpTo (intakes.map kept) v = ((intakes.flatMap values).countP (· ≤ v) : ℕ) := by
  induction intakes with
  | nil => rfl
  | cons i rest ih =>
    have hrest := ih fun j hj => hfits j (List.mem_cons_of_mem _ hj)
    have hvalues : i.kept.values.toList = i.values :=
      i.sampled_kept.ordered (hfits i List.mem_cons_self)
    have hsize : i.kept.values.size = i.kept.seen := by
      rw [← Array.length_toList, hvalues, i.sampled_kept.seen]
    rw [weightUpTo] at hrest ⊢
    rw [List.map_cons, List.map_cons, List.sum_cons, hrest, List.flatMap_cons, List.countP_append,
      Nat.cast_add, hvalues, hsize]
    congr 1
    rcases Nat.eq_zero_or_pos i.kept.seen with hzero | hpos
    · have hnil : i.values = [] := i.size_kept_eq_zero_iff.mp (hsize.trans hzero)
      rw [hnil, List.countP_nil, Nat.cast_zero, zero_mul]
    · rw [div_self (Nat.cast_ne_zero.mpr hpos.ne'), mul_one]

theorem kept_eq_of_fits {intakes : List Intake} (hfits : ∀ i ∈ intakes, i.Fits) :
    {v | ∃ k ∈ intakes.map kept, v ∈ k.values} = {v | v ∈ intakes.flatMap values} := by
  ext v
  constructor
  · rintro ⟨k, hk, hv⟩
    obtain ⟨i, hi, rfl⟩ := List.mem_map.mp hk
    exact List.mem_flatMap.mpr ⟨i, hi, mem_kept hv⟩
  · intro hv
    obtain ⟨i, hi, hv⟩ := List.mem_flatMap.mp hv
    refine ⟨i.kept, List.mem_map_of_mem hi, ?_⟩
    rwa [← Array.mem_toList_iff, i.sampled_kept.ordered (hfits i hi)]

theorem some_kept {intakes : List Intake} (h : intakes.flatMap values ≠ []) :
    ∃ k ∈ intakes.map kept, k.values ≠ #[] := by
  obtain ⟨v, hv⟩ := List.exists_mem_of_ne_nil _ h
  obtain ⟨i, hi, hv⟩ := List.mem_flatMap.mp hv
  refine ⟨i.kept, List.mem_map_of_mem hi, fun hempty => ?_⟩
  have hnil := i.size_kept_eq_zero_iff.mp (by rw [hempty]; rfl)
  rw [hnil] at hv
  exact List.not_mem_nil hv

/-- With room for all values (`Fits`) the quantile is the value at a rank, wherever each value was
put. -/
theorem merged_of_fits {intakes : List Intake} (hfits : ∀ i ∈ intakes, i.Fits)
    (hsome : intakes.flatMap values ≠ []) {sorted : List Int}
    (hperm : sorted.Perm (intakes.flatMap values)) (hsorted : sorted.Pairwise (· ≤ ·)) {q : ℚ}
    (hq : 0 ≤ q) :
    sorted[min ⌊q * (intakes.flatMap values).length⌋₊ ((intakes.flatMap values).length - 1)]? =
      some (merged (intakes.map kept) q) := by
  have hpos := List.length_pos_iff.mpr hsome
  have hlength := hperm.length_eq
  have hrank : min ⌊q * (intakes.flatMap values).length⌋₊ ((intakes.flatMap values).length - 1) <
      sorted.length := by
    omega
  have hquantile := merged_isQuantile (some_kept hsome) q
  rw [kept_eq_of_fits hfits, funext (weightUpTo_kept hfits), total_kept] at hquantile
  rw [List.getElem?_eq_getElem hrank]
  exact congrArg some ((isQuantile_of_rank hperm hsorted (mul_nonneg hq (Nat.cast_nonneg _))
    hrank).unique hquantile)

end Intake

/-- **The quantile of several reservoirs**, however they were filled, read with exact fractions. It
is 0 if they are all empty, else the smallest kept value up to which more than `q` of all that was
put in lies, or the largest kept value. So it grows with `q`, and no order matters: of the
reservoirs, of what each of them keeps, of equal values in the sorted list. While no reservoir is
too small for its values it is the value at rank `q * n` of all `n`, or the last one. -/
theorem merged_is_weighted_quantile (intakes : List Intake) (q : ℚ) :
    let parts := intakes.map Intake.kept
    let all := intakes.flatMap Intake.values
    ((∀ k ∈ parts, k.values = #[]) → merged parts q = 0) ∧
    ((∃ k ∈ parts, k.values ≠ #[]) →
      IsQuantile {v | ∃ k ∈ parts, v ∈ k.values} (weightUpTo parts) (q * all.length)
        (merged parts q)) ∧
    (∀ q', q ≤ q' → merged parts q ≤ merged parts q') ∧
    (∀ parts', Rearranged parts parts' → merged parts' q = merged parts q) ∧
    (∀ order, order.Perm (weighted parts) → order.Pairwise (·.1 ≤ ·.1) →
      reach (q * total parts) 0 0 order = merged parts q) ∧
    ((∀ i ∈ intakes, i.Fits) → all ≠ [] → 0 ≤ q →
      (all.mergeSort (· ≤ ·))[min ⌊q * all.length⌋₊ (all.length - 1)]? =
        some (merged parts q)) := by
  refine ⟨fun hempty => merged_of_empty hempty q, fun hsome => ?_, fun q' hle =>
    merged_le_merged fun x hx => ?_, fun parts' h => merged_of_rearranged h q,
    fun order hperm hsorted => reach_eq_merged hperm hsorted q, fun hfits hsome hq =>
      Intake.merged_of_fits hfits hsome (List.mergeSort_perm ..) ?_ hq⟩
  · rw [← Intake.total_kept]
    exact merged_isQuantile hsome q
  · -- a higher share of the total is a higher target, since the total is not negative
    have htotal : (0 : ℚ) ≤ total (intakes.map Intake.kept) := by
      rw [total_eq_sum]
      exact Nat.cast_nonneg _
    exact (mul_le_mul_of_nonneg_right hle htotal).trans_lt hx
  · exact List.pairwise_mergeSort' (· ≤ ·) _

/-- Three values in three reservoirs, one of them empty: half of them is passed at the second
smallest. -/
theorem merged_is_weighted_quantile_median :
    (∀ i ∈ [Intake.mk 4 0 [30, 10], ⟨0, 0, []⟩, ⟨1, 7, [20]⟩], i.Fits) ∧
      merged ([Intake.mk 4 0 [30, 10], ⟨0, 0, []⟩, ⟨1, 7, [20]⟩].map Intake.kept) (1 / 2 : ℚ) =
        20 := by
  have hfits : ∀ i ∈ [Intake.mk 4 0 [30, 10], ⟨0, 0, []⟩, ⟨1, 7, [20]⟩], i.Fits := by
    simp [Intake.Fits, Intake.capacity_kept]
  obtain ⟨-, -, -, -, -, hrank⟩ :=
    merged_is_weighted_quantile [Intake.mk 4 0 [30, 10], ⟨0, 0, []⟩, ⟨1, 7, [20]⟩] (1 / 2)
  have hmedian := hrank hfits (List.cons_ne_nil _ _) (by norm_num)
  have hfloor : ⌊(1 / 2 : ℚ) * (3 : ℕ)⌋₊ = 1 := by norm_num [Nat.floor_eq_iff]
  have hsorted : ([30, 10, 20] : List Int).mergeSort (fun a b => decide (a ≤ b)) =
      [10, 20, 30] := by cbv
  change (([30, 10, 20] : List Int).mergeSort (fun a b => decide (a ≤ b)))[min ⌊(1 / 2 : ℚ) *
    (3 : ℕ)⌋₊ (3 - 1)]? =
    some _ at hmedian
  rw [hfloor, hsorted] at hmedian
  exact ⟨hfits, (Option.some.inj hmedian).symm⟩

end Headroom.Quantile
