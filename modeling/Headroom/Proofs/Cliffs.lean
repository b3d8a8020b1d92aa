import Headroom.Profile.Level
import Mathlib.Order.Defs.Unbundled

/-!
# Cliffs

Levels are looked at in order, and the search for a cliff ends at the first one. So what follows a
cliff has no influence on the analysis (`analyze_append`), and as long as there is none, a further
level is the only place where one can show (`cliff_concat`). No law of the throughputs is needed for
either.

Without a cliff, `analyze` looks at all levels a second time. The search has kept the best of them
already, so this changes nothing (`analyze_cons`). It takes no more than that `<` is a strict order,
which it is for doubles too.
-/

namespace Headroom.Profile

section
variable {α : Type} [OfNat α 0] [OfNat α 1] [Sub α] [Mul α] [LT α] [LE α] [DecidableLT α]
  [DecidableLE α] {drop : α}

/-- A search `findCliff` that has found a cliff does not look at what follows. -/
theorem findCliff_append_of_some {best b l : Level α} {xs : List (Level α)}
    (h : findCliff drop best xs = (b, some l)) (ys : List (Level α)) :
    findCliff drop best (xs ++ ys) = (b, some l) := by
  induction xs generalizing best with
  | nil => cases h
  | cons x xs ih =>
    rw [List.cons_append]
    unfold findCliff at h ⊢
    split
    · next hcollapsed =>
      rw [if_pos hcollapsed] at h
      exact h
    · next hkept =>
      rw [if_neg hkept] at h
      exact ih h

/-- A search that has found none goes on with the best level so far. -/
theorem findCliff_append_of_none {best b : Level α} {xs : List (Level α)}
    (h : findCliff drop best xs = (b, none)) (ys : List (Level α)) :
    findCliff drop best (xs ++ ys) = findCliff drop b ys := by
  induction xs generalizing best with
  | nil =>
    cases h
    rfl
  | cons x xs ih =>
    rw [List.cons_append]
    unfold findCliff at h
    split at h
    · cases h
    · next hkept =>
      rw [← ih h]
      exact if_neg hkept

variable [Div α]

theorem levels_analyze (levels : List (Level α)) (complete : Bool) (drop : α) :
    (analyze levels complete drop).levels = levels := by
  cases levels <;> rfl

theorem complete_analyze (levels : List (Level α)) (complete : Bool) (drop : α) :
    (analyze levels complete drop).complete = complete := by
  cases levels <;> rfl

theorem failure_analyze (levels : List (Level α)) (complete : Bool) (drop : α) :
    (analyze levels complete drop).failure = none := by
  cases levels <;> rfl

theorem cliff_analyze_congr (levels : List (Level α)) (complete complete' : Bool) (drop : α) :
    (analyze levels complete drop).cliff = (analyze levels complete' drop).cliff := by
  cases levels <;> rfl

/-- With a cliff, the analysis is what the search has stopped with: `bestOf` is not asked again. -/
theorem analyze_of_some {best l first : Level α} {rest : List (Level α)}
    (h : findCliff drop first rest = (best, some l)) (complete : Bool) :
    analyze (first :: rest) complete drop =
      { levels := first :: rest
        optimal := best.threads
        cliff := some l.threads
        severity := loss best.throughput l.throughput
        complete
        failure := none } := by
  unfold analyze
  dsimp only
  rw [h]
  rfl

theorem analyze_eta (levels : List (Level α)) (complete : Bool) (drop : α) :
    { analyze levels complete drop with levels, complete, failure := none } =
      analyze levels complete drop := by
  cases levels <;> rfl

/-- What follows a cliff has no influence on it, on its severity or on the optimum, so the levels of
a run can be analysed while more of them are measured. -/
theorem analyze_append {xs : List (Level α)} {complete : Bool} {k : Int}
    (h : (analyze xs complete drop).cliff = some k) (ys : List (Level α)) (complete' : Bool) :
    analyze (xs ++ ys) complete' drop =
      { analyze xs complete drop with levels := xs ++ ys, complete := complete' } := by
  cases xs with
  | nil => cases h
  | cons first rest =>
    have hcliff : (findCliff drop first rest).2.map Level.threads = some k := h
    obtain ⟨l, hl, -⟩ := Option.map_eq_some_iff.mp hcliff
    have hfound : findCliff drop first rest = ((findCliff drop first rest).1, some l) := by
      rw [← hl]
    have happend := findCliff_append_of_some hfound ys
    rw [List.cons_append, analyze_of_some happend, analyze_of_some hfound]

theorem cliff_eq_none_of_append {xs ys : List (Level α)} {complete complete' : Bool}
    (h : (analyze (xs ++ ys) complete drop).cliff = none) :
    (analyze xs complete' drop).cliff = none := by
  cases hcliff : (analyze xs complete' drop).cliff with
  | none => rfl
  | some k =>
    rw [analyze_append hcliff ys complete] at h
    have : (analyze xs complete' drop).cliff = none := h
    rw [hcliff] at this
    cases this

theorem cliff_concat {xs : List (Level α)} {l : Level α} {complete complete' : Bool} {k : Int}
    (hnone : (analyze xs complete drop).cliff = none)
    (hsome : (analyze (xs ++ [l]) complete' drop).cliff = some k) : k = l.threads := by
  cases xs with
  | nil => cases hsome
  | cons first rest =>
    have hcliff : (findCliff drop first rest).2 = none := Option.map_eq_none_iff.mp hnone
    have hfound : findCliff drop first rest = ((findCliff drop first rest).1, none) := by
      rw [← hcliff]
    have hlast : (findCliff drop first (rest ++ [l])).2.map Level.threads = some k := hsome
    rw [findCliff_append_of_none hfound [l]] at hlast
    unfold findCliff at hlast
    split at hlast
    · cases hlast
      rfl
    · cases hlast

end

/-! ## The second look at the levels -/

section
variable {α : Type} [LT α] {best : Level α} {levels : List (Level α)}

/-- No level of `levels` has a higher throughput than `best`. One that is not a number is higher
than none, so the test has to be the strict one. -/
def Unbeaten (best : Level α) (levels : List (Level α)) : Prop :=
  ∀ l ∈ levels, ¬best.throughput < l.throughput

namespace Unbeaten

theorem singleton [IsStrictOrder α (· < ·)] (l : Level α) : Unbeaten l [l] := by
  intro m hm
  rw [List.mem_singleton.mp hm]
  exact irrefl _

variable [DecidableLT α]

/-- A look at levels that are not better changes nothing: `better` replaces the best one only by a
strictly higher throughput. -/
theorem bestOf_eq (h : Unbeaten best levels) : bestOf best levels = best := by
  induction levels with
  | nil => rfl
  | cons l rest ih =>
    have hkept : better best l = best := if_neg (h l List.mem_cons_self)
    have hrest := ih fun m hm => h m (List.mem_cons_of_mem l hm)
    unfold bestOf at hrest ⊢
    rw [List.foldl_cons, hkept, hrest]

/-- A level that is `better` than the best one is better than all that are not. -/
theorem concat [IsStrictOrder α (· < ·)] (h : Unbeaten best levels) (l : Level α) :
    Unbeaten (better best l) (levels ++ [l]) := by
  intro m hm
  unfold better
  rcases List.mem_append.mp hm with hm | hm
  · split
    · next hbetter => exact fun hlt => h m hm (trans_of (· < ·) hbetter hlt)
    · exact h m hm
  · rw [List.mem_singleton.mp hm]
    split
    · exact irrefl _
    · next hworse => exact hworse

end Unbeaten

end

section
variable {α : Type} [OfNat α 0] [OfNat α 1] [Sub α] [Mul α] [LT α] [LE α] [DecidableLT α]
  [DecidableLE α] [IsStrictOrder α (· < ·)] {drop : α}

/-- The search carries the best level along: if it comes to the end, the one that it returns is
`Unbeaten`. -/
theorem findCliff_unbeaten {best b : Level α} {front rest : List (Level α)}
    (hbest : Unbeaten best front) (h : findCliff drop best rest = (b, none)) :
    Unbeaten b (front ++ rest) := by
  induction rest generalizing best front with
  | nil =>
    cases h
    rwa [List.append_nil]
  | cons l rest ih =>
    unfold findCliff at h
    split at h
    · cases h
    · rw [List.append_cons]
      exact ih (hbest.concat l) h

variable [Div α]

/-- **The second look at the levels changes nothing.** The analysis is the outcome of the search: if
that has found no cliff, the level it returns is `Unbeaten`, and `bestOf` keeps it. -/
theorem analyze_cons (first : Level α) (rest : List (Level α)) (complete : Bool) (drop : α) :
    analyze (first :: rest) complete drop =
      let (best, cliff) := findCliff drop first rest
      { levels := first :: rest
        optimal := best.threads
        cliff := cliff.map Level.threads
        severity := (cliff.map fun l => loss best.throughput l.throughput).getD 0
        complete
        failure := none } := by
  rcases hfound : findCliff drop first rest with ⟨best, _ | l⟩
  · have hbest : bestOf best (first :: rest) = best :=
      (findCliff_unbeaten (.singleton first) hfound).bestOf_eq
    unfold analyze
    dsimp only
    rw [hfound]
    dsimp only [Option.isNone_none, if_true]
    rw [hbest]
    rfl
  · exact analyze_of_some hfound complete

end

end Headroom.Profile
