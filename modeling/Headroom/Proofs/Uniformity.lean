import Headroom.Latency.Reservoir
import Mathlib.Algebra.BigOperators.Fin
import Mathlib.Data.Fin.Tuple.Basic
import Mathlib.Data.Finset.Powerset
import Mathlib.Data.Fintype.BigOperators
import Mathlib.Data.List.Nodup

/-!
# The sample of a reservoir is uniform

Where a value goes depends on the picks and on how many values came before, not on the values. So a
reservoir that is given the numbers of the values shows which positions are kept (`Kept.positions`),
and it is these that are counted here, over all sequences of picks.

* **`Kept.toList_addAll`**: each slot holds the value of its position, for any values.
* **`Kept.Picks.card_retained_eq`**: each choice of positions is kept by the same number of pick
  sequences. The induction is on the values that come after the reservoir is full; each of them
  either leaves a choice as it is or takes the place of one value outside it.
* **`Reservoir.kept_eq_picks`**: the picks of a generator are one of the sequences that are counted.
* **`Reservoir.sample_is_uniform`**: what a reservoir keeps, with all picks and with those of a
  generator.
-/

namespace Headroom

namespace Kept

/-! ## Values and their numbers -/

/-- Several values are put in. The pick that comes with a value is asked for by the number of the
value, from 0 on. -/
def addAll (picks : Nat → Nat) (values : List Int) (k : Kept) : Kept :=
  values.foldl (fun k v => k.add v (picks k.seen)) k

theorem addAll_snoc (picks : Nat → Nat) (values : List Int) (v : Int) (k : Kept) :
    k.addAll picks (values ++ [v]) = (k.addAll picks values).add v
      (picks (k.addAll picks values).seen) := by
  rw [addAll, List.foldl_append]
  rfl

variable {k : Kept} {picks picks' : Nat → Nat}

theorem add_of_room (hroom : k.full = false) (v : Int) (pick : Nat) :
    k.add v pick = { k with seen := k.seen + 1, values := k.values.push v } := by
  simp [add, hroom]

/-- A full reservoir counts the value and puts it into the slot that `pick` names. A pick beyond the
slots names none of them, and the value is passed over. -/
theorem add_of_full (hfull : k.full = true) (hsize : k.values.size ≤ k.capacity) (v : Int)
    (pick : Nat) :
    k.add v pick = { k with seen := k.seen + 1, values := k.values.setIfInBounds pick v } := by
  by_cases hpick : pick < k.capacity
  · simp [add, hfull, hpick]
  · have hout : k.values.setIfInBounds pick v = k.values :=
      Array.setIfInBounds_eq_of_size_le (by omega)
    simp [add, hfull, hpick, hout]

theorem seen_addAll (capacity : Nat) (picks : Nat → Nat) (values : List Int) :
    ((ofCapacity capacity).addAll picks values).seen = values.length := by
  induction values using List.reverseRecOn with
  | nil => rfl
  | append_singleton values v ih =>
    rw [addAll_snoc, List.length_append, ← ih]
    rfl

theorem capacity_addAll (capacity : Nat) (picks : Nat → Nat) (values : List Int) :
    ((ofCapacity capacity).addAll picks values).capacity = max capacity 1 := by
  induction values using List.reverseRecOn with
  | nil => rfl
  | append_singleton values v ih =>
    rw [addAll_snoc, ← ih]
    rfl

theorem addAll_congr (capacity : Nat) {values : List Int}
    (h : ∀ i < values.length, picks i = picks' i) :
    (ofCapacity capacity).addAll picks values = (ofCapacity capacity).addAll picks' values := by
  induction values using List.reverseRecOn with
  | nil => rfl
  | append_singleton values v ih =>
    rw [List.length_append, List.length_singleton] at h
    rw [addAll_snoc, addAll_snoc, ih fun i hi => h i (Nat.lt_succ_of_lt hi), seen_addAll,
      h _ (Nat.lt_succ_self _)]

/-- A reservoir grows up to its capacity, which is at least one, and stays there. -/
theorem size_addAll (capacity : Nat) (picks : Nat → Nat) (values : List Int) :
    ((ofCapacity capacity).addAll picks values).values.size =
      min values.length (max capacity 1) := by
  induction values using List.reverseRecOn with
  | nil => rfl
  | append_singleton values v ih =>
    have hcapacity := capacity_addAll capacity picks values
    rw [addAll_snoc, List.length_append, List.length_singleton]
    generalize (ofCapacity capacity).addAll picks values = k at ih hcapacity ⊢
    cases hfull : k.full with
    | false =>
      have hroom : k.values.size < k.capacity := by simpa [full] using hfull
      rw [add_of_room hfull, Array.size_push]
      omega
    | true =>
      have hroom : k.capacity ≤ k.values.size := by simpa [full] using hfull
      rw [add_of_full hfull (by omega), Array.size_setIfInBounds]
      omega

theorem full_addAll (capacity : Nat) (picks : Nat → Nat) (values : List Int) :
    ((ofCapacity capacity).addAll picks values).full = decide (max capacity 1 ≤ values.length) := by
  rw [full, size_addAll, capacity_addAll, decide_eq_decide, le_min_iff]
  exact and_iff_left le_rfl

/-! ## Positions -/

def map (f : Int → Int) (k : Kept) : Kept := { k with values := k.values.map f }

/-- Which slot a value goes to does not depend on the values. So a reservoir can be followed by the
numbers of its values, as `positions` does. -/
theorem add_map (f : Int → Int) (v : Int) (pick : Nat) (k : Kept) :
    (k.map f).add (f v) pick = (k.add v pick).map f := by
  have hfull : (k.map f).full = k.full := by simp [full, map]
  rw [add, add, hfull]
  cases k.full <;> by_cases hpick : pick < k.capacity <;> simp [map, hpick]

theorem map_ofCapacity (f : Int → Int) (capacity : Nat) :
    (ofCapacity capacity).map f = ofCapacity capacity := by
  rw [map, ofCapacity, Array.map_empty]

theorem addAll_map (f : Int → Int) (picks : Nat → Nat) (values : List Int) (k : Kept) :
    (k.map f).addAll picks (values.map f) = (k.addAll picks values).map f := by
  induction values using List.reverseRecOn with
  | nil => rfl
  | append_singleton values v ih =>
    rw [List.map_append, List.map_singleton, addAll_snoc, ih, add_map, addAll_snoc]
    rfl

/-- The numbers of `n` values, as values themselves. -/
def numbers (n : Nat) : List Int := (List.range n).map Int.ofNat

theorem numbers_succ (n : Nat) : numbers (n + 1) = numbers n ++ [Int.ofNat n] := by
  rw [numbers, List.range_succ, List.map_append]
  rfl

theorem length_numbers (n : Nat) : (numbers n).length = n := by
  rw [numbers, List.length_map, List.length_range]

/-- The numbers of the values that are kept, of `n` values, slot by slot: what a reservoir keeps of
`numbers n`. -/
def positions (capacity : Nat) (picks : Nat → Nat) (n : Nat) : List Nat :=
  ((ofCapacity capacity).addAll picks (numbers n)).values.toList.map Int.toNat

variable {capacity n : Nat}

theorem positions_of_room (h : n < max capacity 1) :
    positions capacity picks (n + 1) = positions capacity picks n ++ [n] := by
  have hfull := full_addAll capacity picks (numbers n)
  rw [length_numbers, decide_eq_false h.not_ge] at hfull
  rw [positions, numbers_succ, addAll_snoc, add_of_room hfull, Array.toList_push, List.map_append]
  rfl

/-- One more value takes the place of the one in the slot that its pick names. -/
theorem positions_of_full (h : max capacity 1 ≤ n) :
    positions capacity picks (n + 1) = (positions capacity picks n).set (picks n) n := by
  have hfull := full_addAll capacity picks (numbers n)
  rw [length_numbers, decide_eq_true h] at hfull
  have hsize := size_addAll capacity picks (numbers n)
  rw [← capacity_addAll capacity picks (numbers n)] at hsize
  rw [positions, numbers_succ, addAll_snoc, add_of_full hfull (hsize ▸ Nat.min_le_right _ _),
    Array.toList_setIfInBounds, List.map_set, seen_addAll, length_numbers]
  rfl

theorem length_positions (capacity : Nat) (picks : Nat → Nat) (n : Nat) :
    (positions capacity picks n).length = min n (max capacity 1) := by
  rw [positions, List.length_map, Array.length_toList, size_addAll, length_numbers]

theorem lt_of_mem_positions {i : Nat} (h : i ∈ positions capacity picks n) : i < n := by
  induction n with
  | zero => exact absurd h List.not_mem_nil
  | succ n ih =>
    rcases Nat.lt_or_ge n (max capacity 1) with hroom | hfull
    · rw [positions_of_room hroom, List.mem_append, List.mem_singleton] at h
      rcases h with h | rfl
      exacts [Nat.lt_succ_of_lt (ih h), Nat.lt_succ_self _]
    · rw [positions_of_full hfull] at h
      rcases List.mem_or_eq_of_mem_set h with h | rfl
      exacts [Nat.lt_succ_of_lt (ih h), Nat.lt_succ_self _]

/-- No number is in two slots of `positions`, since the one that comes in is new. -/
theorem nodup_positions (capacity : Nat) (picks : Nat → Nat) (n : Nat) :
    (positions capacity picks n).Nodup := by
  induction n with
  | zero => exact List.nodup_nil
  | succ n ih =>
    have hnew : n ∉ positions capacity picks n := fun h => Nat.lt_irrefl n (lt_of_mem_positions h)
    rcases Nat.lt_or_ge n (max capacity 1) with hroom | hfull
    · rw [positions_of_room hroom]
      exact List.concat_eq_append ▸ ih.concat hnew
    · rw [positions_of_full hfull]
      exact ih.set hnew

theorem positions_congr (h : ∀ i < n, picks i = picks' i) :
    positions capacity picks n = positions capacity picks' n := by
  rw [positions, addAll_congr capacity fun i hi => h i (length_numbers n ▸ hi), positions]

theorem positions_eq_range (h : n ≤ max capacity 1) :
    positions capacity picks n = List.range n := by
  induction n with
  | zero => rfl
  | succ n ih => rw [positions_of_room h, ih (Nat.le_of_succ_le h), List.range_succ]

theorem map_getD_range (values : List Int) :
    (List.range values.length).map (values.getD · 0) = values :=
  List.ext_getElem (by rw [List.length_map, List.length_range]) fun i _ hi => by simp [hi]

/-- Each slot holds the value put in at its position, by `addAll_map` with the numbers as values. -/
theorem toList_addAll (capacity : Nat) (picks : Nat → Nat) (values : List Int) :
    ((ofCapacity capacity).addAll picks values).values.toList =
      (positions capacity picks values.length).map (values.getD · 0) := by
  -- the values are their numbers, each read as the value that has it
  have hvalues : (numbers values.length).map (fun v => values.getD v.toNat 0) = values := by
    rw [numbers, List.map_map]
    exact map_getD_range values
  have hmap := addAll_map (fun v => values.getD v.toNat 0) picks (numbers values.length)
    (ofCapacity capacity)
  rw [hvalues, map_ofCapacity] at hmap
  rw [hmap, positions, List.map_map, map, Array.toList_map]
  rfl

/-- The slots hold the values put in at the given positions, no position twice. -/
structure Drawn (values : List Int) (k : Kept) (position : Fin k.values.size → Fin values.length) :
    Prop where
  injective : Function.Injective position
  holds (slot : Fin k.values.size) : k.values[slot] = values[position slot]

/-- Whatever the picks, the slots hold values from different positions, and these
are `positions`. -/
theorem drawn_addAll (capacity : Nat) (picks : Nat → Nat) (values : List Int) :
    ∃ position, Drawn values ((ofCapacity capacity).addAll picks values) position ∧
      Finset.univ.image (fun slot => (position slot : Nat)) =
        (positions capacity picks values.length).toFinset := by
  have hlist := toList_addAll capacity picks values
  have hnodup := nodup_positions capacity picks values.length
  have hlt {i : Nat} (h : i ∈ positions capacity picks values.length) := lt_of_mem_positions h
  -- from here on it does not matter how the positions came about
  generalize positions capacity picks values.length = chosen at hlist hnodup hlt ⊢
  generalize (ofCapacity capacity).addAll picks values = k at hlist ⊢
  have hsize : k.values.size = chosen.length := by
    rw [← Array.length_toList, hlist, List.length_map]
  refine ⟨fun slot => ⟨chosen.get (slot.cast hsize), hlt (List.get_mem _ _)⟩,
    ⟨fun a b hab => ?_, fun slot => ?_⟩, ?_⟩
  · exact Fin.cast_injective hsize (hnodup.injective_get (Fin.mk.inj hab))
  · have hslot : slot < chosen.length := hsize ▸ slot.isLt
    have hget := congrArg (·[slot.val]?) hlist
    simp only [List.getElem?_map, Array.getElem?_toList] at hget
    rw [List.getElem?_eq_getElem hslot, Array.getElem?_eq_getElem slot.isLt, Option.map_some,
      Option.some_inj] at hget
    exact hget.trans (List.getElem_eq_getD 0).symm
  · ext i
    rw [Finset.mem_image, List.mem_toFinset, List.mem_iff_get]
    constructor
    · rintro ⟨slot, -, rfl⟩
      exact ⟨slot.cast hsize, rfl⟩
    · rintro ⟨slot, rfl⟩
      exact ⟨slot.cast hsize.symm, Finset.mem_univ _, rfl⟩

/-- As many values are kept as there is room for, each was put in and none is kept twice. -/
structure Sampled (values : List Int) (k : Kept) : Prop where
  seen : k.seen = values.length
  size : k.values.size = min values.length k.capacity
  drawn : ∃ position, Drawn values k position
  ordered : values.length ≤ k.capacity → k.values.toList = values

theorem sampled_addAll (capacity : Nat) (picks : Nat → Nat) (values : List Int) :
    Sampled values ((ofCapacity capacity).addAll picks values) := by
  obtain ⟨position, hdrawn, -⟩ := drawn_addAll capacity picks values
  refine ⟨seen_addAll .., ?_, ⟨position, hdrawn⟩, fun hroom => ?_⟩
  · rw [capacity_addAll, size_addAll]
  · rw [capacity_addAll] at hroom
    rw [toList_addAll, positions_eq_range hroom, map_getD_range]

/-! ## Every sequence of picks -/

open Finset
open scoped Nat

/-- The picks for `more` values after the first `k`. The value of number `k + i` is the `k + i +
1`-th, and its pick is below that. A uniform choice of picks is the uniform distribution on this
type. -/
abbrev Picks (k more : Nat) : Type := (i : Fin more) → Fin (k + i + 1)

namespace Picks

variable {k more : Nat}

/-- The pick by the number of the value. The first values come without one. -/
def pick (p : Picks k more) (number : Nat) : Nat :=
  if h : k ≤ number ∧ number < k + more then p ⟨number - k, by omega⟩ else 0

/-- The position whose value each slot holds, after all `k + more` values. -/
def slots (p : Picks k more) : List Nat := positions k p.pick (k + more)

/-- The positions of the values that are kept, without the order of the slots. -/
def retained (p : Picks k more) : Finset Nat := p.slots.toFinset

/-- Picks for one more value. Every sequence of picks is of this form in one way, which
`card_filter_snoc` uses. -/
def snoc (q : Picks k more) (j : Fin (k + more + 1)) : Picks k (more + 1) :=
  Fin.snoc (α := fun i : Fin (more + 1) => Fin (k + i + 1)) q j

theorem pick_add (p : Picks k more) (i : Fin more) : p.pick (k + i) = p i := by
  have hi : k ≤ k + i.val ∧ k + i.val < k + more :=
    ⟨Nat.le_add_right k i, Nat.add_lt_add_left i.isLt k⟩
  rw [pick, dif_pos hi]
  exact congrArg (fun i => (p i : Nat)) (Fin.ext (Nat.add_sub_cancel_left k i))

theorem pick_snoc_of_lt (q : Picks k more) (j : Fin (k + more + 1)) {number : Nat}
    (h : number < k + more) :
    (q.snoc j).pick number = q.pick number := by
  rcases Nat.lt_or_ge number k with hfirst | hafter
  · rw [pick, pick, dif_neg (by omega), dif_neg (by omega)]
  · obtain ⟨i, rfl⟩ := Nat.exists_eq_add_of_le hafter
    have hi : i < more := Nat.lt_of_add_lt_add_left h
    have hlast := pick_add (q.snoc j) (Fin.castSucc ⟨i, hi⟩)
    rw [snoc, Fin.snoc_castSucc] at hlast
    exact hlast.trans (pick_add q ⟨i, hi⟩).symm

theorem pick_snoc_last (q : Picks k more) (j : Fin (k + more + 1)) :
    (q.snoc j).pick (k + more) = j := by
  have hlast := pick_add (q.snoc j) (Fin.last more)
  rwa [snoc, Fin.snoc_last] at hlast

/-- The last pick can be counted after all others: sequences of picks are split by `snoc`. -/
theorem card_filter_snoc (P : Picks k (more + 1) → Prop) [DecidablePred P] :
    card {p | P p} = ∑ q : Picks k more, card {j | P (q.snoc j)} := by
  simp only [card_filter]
  rw [← (Fin.snocEquiv fun i : Fin (more + 1) => Fin (k + i + 1)).sum_comp,
    Fintype.sum_prod_type_right]
  rfl

theorem slot_lt {q : Picks k more} {i : Nat} (h : i ∈ q.slots) : i < k + more :=
  lt_of_mem_positions h

theorem nodup_slots (q : Picks k more) : q.slots.Nodup := nodup_positions ..

theorem last_not_mem (q : Picks k more) : k + more ∉ q.retained := fun h =>
  Nat.lt_irrefl _ (slot_lt (List.mem_toFinset.mp h))

variable (hk : 1 ≤ k)
include hk

theorem length_slots (q : Picks k more) : q.slots.length = k := by
  rw [slots, length_positions]
  omega

theorem retained_mem (q : Picks k more) : q.retained ∈ powersetCard k (range (k + more)) := by
  rw [mem_powersetCard, retained, List.toFinset_card_of_nodup q.nodup_slots, length_slots hk]
  exact ⟨fun i hi => mem_range.mpr (slot_lt (List.mem_toFinset.mp hi)), rfl⟩

/-! ### The last pick -/

theorem slots_snoc (q : Picks k more) (j : Fin (k + more + 1)) :
    (q.snoc j).slots = q.slots.set j (k + more) := by
  rw [slots, ← Nat.add_assoc, positions_of_full (by omega), pick_snoc_last,
    positions_congr fun i hi => pick_snoc_of_lt q j hi, slots]

theorem retained_snoc_of_ge (q : Picks k more) {j : Fin (k + more + 1)} (hj : k ≤ j) :
    (q.snoc j).retained = q.retained := by
  have hout : q.slots.length ≤ j := by rwa [length_slots hk]
  rw [retained, slots_snoc hk, List.set_eq_of_length_le hout, retained]

/-- A pick that names a slot puts the last value in the place of the one in that slot. -/
theorem retained_snoc_of_lt (q : Picks k more) {j : Fin (k + more + 1)} (hj : j < q.slots.length) :
    (q.snoc j).retained = insert (k + more) (q.retained.erase q.slots[j]) := by
  rw [retained, slots_snoc hk, List.toFinset_eq_of_perm _ _ (List.set_perm_cons_eraseIdx hj _),
    List.toFinset_cons, ← q.nodup_slots.erase_getElem]
  congr 1
  ext i
  rw [List.mem_toFinset, q.nodup_slots.mem_erase_iff, mem_erase, retained, List.mem_toFinset]
  rfl

/-- A set without the last value comes about if the last pick names no slot, and the set was kept
before. -/
theorem retained_snoc_eq_iff (q : Picks k more) (j : Fin (k + more + 1)) {S : Finset Nat}
    (hS : k + more ∉ S) :
    (q.snoc j).retained = S ↔ k ≤ j ∧ q.retained = S := by
  constructor
  · intro h
    rcases Nat.lt_or_ge j k with hj | hj
    · rw [retained_snoc_of_lt hk q (lt_of_lt_of_eq hj (length_slots hk q).symm)] at h
      exact absurd (h ▸ mem_insert_self _ _) hS
    · exact ⟨hj, retained_snoc_of_ge hk q hj ▸ h⟩
  · rintro ⟨hj, h⟩
    rw [retained_snoc_of_ge hk q hj, h]

/-- A set with the last value comes about if the last pick names the slot of a value outside it, and
all others of the set were kept before. -/
theorem retained_snoc_eq_insert_iff (q : Picks k more) (j : Fin (k + more + 1)) {T : Finset Nat}
    (hT : k + more ∉ T) :
    (q.snoc j).retained = insert (k + more) T ↔
      ∃ hj : j < q.slots.length, q.slots[j] ∉ T ∧ q.retained = insert q.slots[j] T := by
  constructor
  · intro h
    rcases Nat.lt_or_ge j q.slots.length with hj | hj
    · have hslot : q.slots[j] ∈ q.retained := List.mem_toFinset.mpr (List.getElem_mem hj)
      rw [retained_snoc_of_lt hk q hj] at h
      have herase : q.retained.erase q.slots[j] = T := by
        rw [← erase_insert hT, ← h, erase_insert fun hmem => q.last_not_mem (mem_of_mem_erase hmem)]
      subst herase
      exact ⟨hj, notMem_erase _ _, (insert_erase hslot).symm⟩
    · rw [length_slots hk] at hj
      rw [retained_snoc_of_ge hk q hj] at h
      exact absurd (h ▸ mem_insert_self _ _) q.last_not_mem
  · rintro ⟨hj, hslot, h⟩
    rw [retained_snoc_of_lt hk q hj, h, erase_insert hslot]

theorem card_snoc_of_not_mem (q : Picks k more) {S : Finset Nat} (hS : k + more ∉ S) :
    card {j | (q.snoc j).retained = S} = if q.retained = S then more + 1 else 0 := by
  have hiff (j : Fin (k + more + 1)) := retained_snoc_eq_iff hk q j hS
  split
  next h =>
    have hge : card {j : Fin (k + more + 1) | (⟨k, by omega⟩ : Fin (k + more + 1)) ≤ j} = more +
        1 := by
      rw [filter_le_eq_Ici, Fin.card_Ici]
      exact Nat.sub_eq_of_eq_add' (Nat.add_assoc k more 1)
    simp only [hiff, h, and_true]
    exact hge
  next h => simp [hiff, h]

theorem card_snoc_insert (q : Picks k more) {T : Finset Nat} (hT : k + more ∉ T) :
    card {j | (q.snoc j).retained = insert (k + more) T} =
      card {i ∈ range (k + more) \ T | q.retained = insert i T} := by
  have hiff (j : Fin (k + more + 1)) := retained_snoc_eq_insert_iff hk q j hT
  -- a pick is as good as the position in the slot that it names, since no two slots have the same
  -- one
  refine card_bij (fun j _ => q.slots.getD j 0) ?_ ?_ ?_
  · intro j h
    obtain ⟨hj, hslot, h⟩ := (hiff j).mp (mem_filter.mp h).2
    have hrange : q.slots[j] ∈ range (k + more) := mem_range.mpr (slot_lt (List.getElem_mem hj))
    rw [← List.getElem_eq_getD (h := hj)]
    exact mem_filter.mpr ⟨mem_sdiff.mpr ⟨hrange, hslot⟩, h⟩
  · intro a ha b hb hab
    obtain ⟨ha, -⟩ := (hiff a).mp (mem_filter.mp ha).2
    obtain ⟨hb, -⟩ := (hiff b).mp (mem_filter.mp hb).2
    rw [← List.getElem_eq_getD (h := ha), ← List.getElem_eq_getD (h := hb),
      q.nodup_slots.getElem_inj_iff] at hab
    exact Fin.ext hab
  · intro i h
    obtain ⟨hi, h⟩ := mem_filter.mp h
    have hslot : i ∈ q.slots :=
      List.mem_toFinset.mp (show i ∈ q.retained from h ▸ mem_insert_self i T)
    obtain ⟨j, hj, rfl⟩ := List.getElem_of_mem hslot
    have hbound : j < k + more + 1 := by
      rw [length_slots hk] at hj
      omega
    refine ⟨⟨j, hbound⟩, mem_filter.mpr ⟨mem_univ _, (hiff _).mpr ⟨hj, (mem_sdiff.mp hi).2, h⟩⟩, ?_⟩
    exact (List.getElem_eq_getD (h := hj) 0).symm

/-! ### All picks -/

/-- For a set without the last value there are `more + 1` last picks that keep it. -/
theorem card_retained_of_not_mem {S : Finset Nat} (hS : k + more ∉ S) :
    card {p : Picks k (more + 1) | p.retained = S} =
      (more + 1) * card {q : Picks k more | q.retained = S} := by
  calc card {p : Picks k (more + 1) | p.retained = S}
      = ∑ q : Picks k more, card {j | (q.snoc j).retained = S} := card_filter_snoc _
    _ = ∑ q : Picks k more, if q.retained = S then more + 1 else 0 :=
        sum_congr rfl fun q _ => card_snoc_of_not_mem hk q hS
    _ = (more + 1) * card {q : Picks k more | q.retained = S} := by
        rw [← sum_filter, sum_const, smul_eq_mul, Nat.mul_comm]

/-- The value that gave way to the last one can be any one outside the set, and each of them by one
pick. -/
theorem card_retained_insert {T : Finset Nat} (hT : k + more ∉ T) :
    card {p : Picks k (more + 1) | p.retained = insert (k + more) T} =
      ∑ i ∈ range (k + more) \ T, card {q : Picks k more | q.retained = insert i T} := by
  calc card {p : Picks k (more + 1) | p.retained = insert (k + more) T}
      = ∑ q : Picks k more, card {j | (q.snoc j).retained = insert (k + more) T} :=
        card_filter_snoc _
    _ = ∑ q : Picks k more, card {i ∈ range (k + more) \ T | q.retained = insert i T} :=
        sum_congr rfl fun q _ => card_snoc_insert hk q hT
    _ = ∑ i ∈ range (k + more) \ T, card {q : Picks k more | q.retained = insert i T} := by
        simp only [card_filter]
        exact sum_comm

/-- Each choice of `k` positions is kept by the same number of pick sequences. By induction on the
number of values after the first `k`, with one case for the sets that contain the last value and one
for the others. -/
theorem card_retained_eq (more : Nat) {S : Finset Nat}
    (hS : S ∈ powersetCard k (range (k + more))) :
    card {p : Picks k more | p.retained = S} = more ! := by
  induction more generalizing S with
  | zero =>
    have hone {A : Finset Nat} (hA : A ∈ powersetCard k (range (k + 0))) : A = range k := by
      obtain ⟨hsub, hcard⟩ := mem_powersetCard.mp hA
      exact eq_of_subset_of_card_le hsub (by rw [card_range, hcard])
    -- there is one set of `k` numbers below `k`, whatever the picks
    have hall (p : Picks k 0) : p.retained = S := (hone (retained_mem hk p)).trans (hone hS).symm
    rw [filter_true_of_mem fun p _ => hall p, card_univ, Fintype.card_unique, Nat.factorial_zero]
  | succ more ih =>
    obtain ⟨hsub, hcard⟩ := mem_powersetCard.mp hS
    have hbefore {A : Finset Nat} (hA : A ⊆ range (k + more + 1)) (hlast : k + more ∉ A) :
        A ⊆ range (k + more) := by
      rwa [range_add_one, subset_insert_iff_of_notMem hlast] at hA
    rw [Nat.factorial_succ]
    by_cases hlast : k + more ∈ S
    · -- the last value took the place of one of the `more + 1` that are outside
      obtain ⟨T, hT, rfl⟩ : ∃ T, k + more ∉ T ∧ insert (k + more) T = S :=
        ⟨S.erase (k + more), notMem_erase _ _, insert_erase hlast⟩
      rw [card_insert_of_notMem hT] at hcard
      have hsubT : T ⊆ range (k + more) := hbefore ((subset_insert _ _).trans hsub) hT
      have hside {i : Nat} (hi : i ∈ range (k + more) \ T) :
          insert i T ∈ powersetCard k (range (k + more)) := by
        obtain ⟨hi, hiT⟩ := mem_sdiff.mp hi
        exact mem_powersetCard.mpr ⟨insert_subset hi hsubT, by
          rw [card_insert_of_notMem hiT, hcard]⟩
      have houtside : card (range (k + more) \ T) = more + 1 := by
        rw [card_sdiff_of_subset hsubT, card_range]
        omega
      rw [card_retained_insert hk hT, sum_congr rfl fun i hi => ih (hside hi), sum_const, houtside,
        smul_eq_mul]
    · -- one of the `more + 1` picks beyond the slots left the others in place
      rw [card_retained_of_not_mem hk hlast, ih (mem_powersetCard.mpr ⟨hbefore hsub hlast, hcard⟩)]

/-- What holds of a share of all choices holds for the same share of all pick
sequences (`Picks`). -/
theorem card_filter_retained (more : Nat) (P : Finset Nat → Prop) [DecidablePred P] :
    card {p : Picks k more | P p.retained} = card {S ∈ powersetCard k (range (k + more)) | P S} *
      more ! := by
  have hmaps (p : Picks k more) (hp : p ∈ univ.filter fun p : Picks k more => P p.retained) :
      p.retained ∈ (powersetCard k (range (k + more))).filter P :=
    mem_filter.mpr ⟨retained_mem hk p, (mem_filter.mp hp).2⟩
  rw [card_eq_sum_card_fiberwise hmaps, sum_const_nat fun S hS => ?_]
  obtain ⟨hS, hP⟩ := mem_filter.mp hS
  rw [← card_retained_eq hk more hS, filter_filter]
  congr 1
  exact filter_congr fun p _ => ⟨And.right, fun h => ⟨h ▸ hP, h⟩⟩

/-- Each value is kept in `k` of `k + more` cases, whatever its number. -/
theorem card_mem_retained (more : Nat) {i : Nat} (hi : i < k + more) :
    (k + more) * card {p : Picks k more | i ∈ p.retained} = k * Fintype.card (Picks k more) := by
  have hall : Fintype.card (Picks k more) = (k + more).choose k * more ! := by
    have h := card_filter_retained hk more fun _ => True
    rwa [filter_true, filter_true, card_univ, card_powersetCard, card_range] at h
  have hmem : card {S ∈ powersetCard k (range (k + more)) | i ∈ S} =
      (k + more - 1).choose (k - 1) := by
    have h := card_filter_powersetCard_subset {i} (range (k + more)) k
      (singleton_subset_iff.mpr (mem_range.mpr hi)) (card_singleton i ▸ hk)
    simpa only [singleton_subset_iff, card_range, card_singleton] using h
  have hchoose : (k + more) * (k + more - 1).choose (k - 1) = k * (k + more).choose k := by
    obtain ⟨j, rfl⟩ := Nat.exists_eq_add_of_le' hk
    rw [Nat.add_right_comm, Nat.add_sub_cancel, Nat.add_sub_cancel, Nat.add_one_mul_choose_eq,
      Nat.mul_comm]
  rw [card_filter_retained hk more (i ∈ ·), hmem, hall, ← Nat.mul_assoc, hchoose, Nat.mul_assoc]

end Picks

end Kept

/-! ## The generator -/

namespace Twister

theorem draw_lt {bound : Nat} (hbound : 0 < bound) (limit fuel : Nat) (g : Twister) :
    (draw bound limit fuel g).1 < bound := by
  induction fuel generalizing g with
  | zero => exact hbound
  | succ fuel ih =>
    rw [draw]
    obtain ⟨x, g'⟩ := g.next
    have hproduct : x.toNat * bound < UInt64.size * bound :=
      Nat.mul_lt_mul_of_pos_right x.toNat_lt_size hbound
    show (ite _ _ _ : Nat × Twister).1 < bound
    split
    · exact ih g'
    · exact Nat.div_lt_of_lt_mul hproduct

/-- What the generator draws is below the bound, whether or not it had to draw again. -/
theorem below_lt {bound : Nat} (hbound : 0 < bound) (g : Twister) : (g.below bound).1 < bound :=
  draw_lt hbound ..

end Twister

namespace Reservoir

open Kept

def addAll (values : List Int) (r : Reservoir) : Reservoir := values.foldl (fun r v => r.add v) r

theorem addAll_snoc (values : List Int) (v : Int) (r : Reservoir) :
    r.addAll (values ++ [v]) = (r.addAll values).add v := by
  rw [addAll, List.foldl_append]
  rfl

/-- The pick for a value, by its number: once the reservoir is full, what the generator draws after
all values before it. It is below `m` for the `m`-th value, the one of number `m - 1`. -/
def draws (capacity : Nat) (seed : UInt64) (values : List Int) (number : Nat) : Nat :=
  if number < max capacity 1 then 0
  else (((create capacity seed).addAll (values.take number)).generator.below (number + 1)).1

theorem draws_lt (capacity : Nat) (seed : UInt64) (values : List Int) (number : Nat) :
    draws capacity seed values number < number + 1 := by
  unfold draws
  split
  · exact Nat.succ_pos number
  · exact Twister.below_lt (Nat.succ_pos number) _

theorem draws_append {capacity number : Nat} {seed : UInt64} {values : List Int}
    (h : number ≤ values.length) (more : List Int) :
    draws capacity seed (values ++ more) number = draws capacity seed values number := by
  rw [draws, List.take_append_of_le_length h, draws]

theorem kept_add (v : Int) (r : Reservoir) :
    (r.add v).kept =
      r.kept.add v (if r.kept.full then (r.generator.below (r.kept.seen + 1)).1 else 0) := by
  rw [add]
  cases r.kept.full <;> rfl

/-- A reservoir with a generator keeps what it keeps with the picks that the generator draws
(`draws`). -/
theorem kept_addAll (capacity : Nat) (seed : UInt64) (values : List Int) :
    ((create capacity seed).addAll values).kept = (ofCapacity capacity).addAll
      (draws capacity seed values) values := by
  induction values using List.reverseRecOn with
  | nil => rfl
  | append_singleton values v ih =>
    have hbefore : (ofCapacity capacity).addAll (draws capacity seed (values ++ [v])) values =
        ((create capacity seed).addAll values).kept :=
      (addAll_congr capacity fun i hi => draws_append (Nat.le_of_lt hi) [v]).trans ih.symm
    have hseen : ((create capacity seed).addAll values).kept.seen = values.length :=
      ih ▸ seen_addAll ..
    have hfull := full_addAll capacity (draws capacity seed values) values
    rw [← ih] at hfull
    rw [addAll_snoc, kept_add, Kept.addAll_snoc, hbefore, hseen, draws_append (Nat.le_refl _),
      draws, List.take_length, hfull]
    rcases Nat.lt_or_ge values.length (max capacity 1) with hroom | hlate
    · rw [decide_eq_false hroom.not_ge, if_pos hroom]
      rfl
    · rw [decide_eq_true hlate, if_neg hlate.not_gt]
      rfl

/-- The picks of the generator are among those that are counted: some `Picks` has them. -/
theorem kept_eq_picks {capacity more : Nat} (seed : UInt64) {values : List Int}
    (hlength : values.length = max capacity 1 + more) :
    ∃ p : Picks (max capacity 1) more,
      (∀ i, (p i : Nat) = draws capacity seed values (max capacity 1 + i)) ∧
      ((create capacity seed).addAll values).kept = (ofCapacity capacity).addAll p.pick values := by
  let p : Picks (max capacity 1) more :=
    fun i => ⟨draws capacity seed values (max capacity 1 + i), draws_lt ..⟩
  refine ⟨p, fun _ => rfl, (kept_addAll capacity seed values).trans
    (addAll_congr capacity fun i hi => ?_)⟩
  rcases Nat.lt_or_ge i (max capacity 1) with hfirst | hafter
  · rw [draws, if_pos hfirst, Picks.pick, dif_neg fun h => hfirst.not_ge h.1]
  · obtain ⟨j, rfl⟩ := Nat.exists_eq_add_of_le hafter
    have hj : j < more := Nat.lt_of_add_lt_add_left (hlength ▸ hi)
    exact (p.pick_add ⟨j, hj⟩).symm

open Finset in
open scoped Nat in
/-- A reservoir keeps a uniform sample. Over all sequences of picks for `k` slots and `k + more`
values each choice of `k` positions is kept by equally many, so each value is kept by `k` in `k +
more` of them. With a generator, whatever its seed, the picks are that one of these sequences that
it draws. -/
theorem sample_is_uniform (k more : Nat) (hk : 1 ≤ k) (capacity : Nat) (seed : UInt64)
    (values : List Int) :
    (∀ p : Picks k more, p.retained ∈ powersetCard k (range (k + more)) ∧
      ∀ inputs : List Int, inputs.length = k + more →
        ∃ position, Drawn inputs ((ofCapacity k).addAll p.pick inputs) position ∧
          univ.image (fun slot => (position slot : Nat)) = p.retained) ∧
    (∀ S ∈ powersetCard k (range (k + more)), card {p : Picks k more | p.retained = S} = more !) ∧
    (∀ i < k + more, (k + more) * card {p : Picks k more | i ∈ p.retained} =
      k * Fintype.card (Picks k more)) ∧
    ((create capacity seed).addAll values).kept.capacity = max capacity 1 ∧
    Sampled values ((create capacity seed).addAll values).kept ∧
    ∀ rest, values.length = max capacity 1 + rest →
      ∃ p : Picks (max capacity 1) rest,
        (∀ i, (p i : Nat) = draws capacity seed values (max capacity 1 + i)) ∧
        ((create capacity seed).addAll values).kept =
        (ofCapacity capacity).addAll p.pick values := by
  have heq := kept_addAll capacity seed values
  refine ⟨fun p => ⟨Picks.retained_mem hk p, fun inputs hlength => ?_⟩, fun S hS =>
    Picks.card_retained_eq hk more hS, fun i hi => Picks.card_mem_retained hk more hi,
    heq ▸ capacity_addAll .., heq ▸ sampled_addAll .., fun rest hrest => kept_eq_picks seed hrest⟩
  obtain ⟨position, hdrawn, himage⟩ := drawn_addAll k p.pick inputs
  exact ⟨position, hdrawn, himage.trans (by rw [hlength]; rfl)⟩

open Finset in
/-- Two of four values: of the 12 sequences of picks two keep the first and the last. -/
theorem sample_is_uniform_twoOfFour :
    1 ≤ 2 ∧ card {p : Picks 2 2 | p.retained = {0, 3}} = 2 ∧
      4 * card {p : Picks 2 2 | 1 ∈ p.retained} = 2 * Fintype.card (Picks 2 2) ∧
      Fintype.card (Picks 2 2) = 12 ∧
      Sampled [5, 5, 7, 5] ((create 2 defaultSeed).addAll [5, 5, 7, 5]).kept ∧ ∃ p : Picks 2 2,
      (∀ i, (p i : Nat) = draws 2 defaultSeed [5, 5, 7, 5] (2 + i)) ∧
        ((create 2 defaultSeed).addAll [5, 5, 7, 5]).kept =
          (ofCapacity 2).addAll p.pick [5, 5, 7, 5] := by
  obtain ⟨_, hcount, hshare, _, hsampled, hpicks⟩ :=
    sample_is_uniform 2 2 (by decide) 2 defaultSeed [5, 5, 7, 5]
  exact ⟨by decide, hcount {0, 3} (by decide), hshare 1 (by decide), by decide, hsampled,
    hpicks 2 rfl⟩

end Reservoir

end Headroom
