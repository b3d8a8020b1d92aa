import Headroom.Proofs.Comparison
import Headroom.Proofs.Usability

/-!
# What an approval says

The veto looks at its rules one after the other, and the first one that speaks against a batch is
the reason that it gives. It approves if none of them does.

* **`Case`**: a batch with all that the veto looks at. `Case.Objects` says what each rule finds by
  itself.
* **`objects_reason`, `rank_reason_le`**: the reason is a rule that objects, and the first one. How
  the rules are written down matters nowhere else.
* **`veto_is_monotone`**: a batch that is no worse in any respect gets no worse a reason.
* **`approval_sound_iff`**: an approval keeps all limits exactly if the estimates that count are
  numbers.
-/

namespace Headroom.Veto

open Doubles

/-- How far a batch gets with the rules: the number of those that it passes before the one that
objects. -/
def Reason.rank : Reason → Nat
  | notEnoughItems => 0
  | lowSpeedup => 1
  | cliffDetected => 2
  | contentionLow => 3
  | none => 4

theorem Reason.rank_le_four (r : Reason) : r.rank ≤ 4 := by
  cases r <;> decide

/-- A batch that is put before the veto, with all that the rules look at: its size, what is expected
of it, and what was measured. -/
structure Case where
  policy : Policy Float
  items : Nat
  speedup : Float
  beta : Estimate Float
  cliff : Option Int
  threads : Int

namespace Case

def decision (c : Case) : Decision Float :=
  decide c.policy c.items c.speedup c.beta c.cliff c.threads

/-- The rule with this `Reason` speaks against the batch, whatever the others say. `decision`
reports the first one that does. -/
def Objects (c : Case) : Reason → Prop
  | .notEnoughItems => c.items < c.policy.minItems
  | .lowSpeedup => c.speedup < c.policy.minSpeedup
  | .cliffDetected => cliffInReach c.cliff c.threads = true
  | .contentionLow => contended c.policy c.beta = true
  | .none => False

variable {c d : Case}

theorem approved_iff : c.decision.approved = true ↔ c.decision.reason = .none := decide_eq_true_iff

theorem objects_reason (h : c.decision.reason ≠ .none) : c.Objects c.decision.reason := by
  revert h
  show reasonFor _ _ _ _ _ _ ≠ .none → c.Objects (reasonFor _ _ _ _ _ _)
  unfold reasonFor
  split
  · next hitems => exact fun _ => hitems
  · split
    · next hspeedup => exact fun _ => hspeedup
    · split
      · next hcliff => exact fun _ => hcliff
      · split
        · next hcontended => exact fun _ => hcontended
        · exact fun h => absurd rfl h

/-- No rule before the one that is given as the reason `Objects`. -/
theorem rank_reason_le {r : Reason} (h : c.Objects r) : c.decision.reason.rank ≤ r.rank := by
  show (reasonFor _ _ _ _ _ _).rank ≤ r.rank
  unfold reasonFor
  cases r with
  | none => exact h.elim
  | notEnoughItems => rw [if_pos (show c.items < c.policy.minItems from h)]
  | lowSpeedup =>
    rw [if_pos (show c.speedup < c.policy.minSpeedup from h)]
    split <;> decide
  | cliffDetected =>
    rw [if_pos (show cliffInReach c.cliff c.threads = true from h)]
    repeat' split
    all_goals decide
  | contentionLow =>
    rw [if_pos (show contended c.policy c.beta = true from h)]
    repeat' split
    all_goals decide

/-- A batch is approved exactly if no rule `Objects`. -/
theorem approved_iff_forall : c.decision.approved = true ↔ ∀ r, ¬c.Objects r := by
  rw [approved_iff]
  constructor
  · intro hnone r hr
    have hle := rank_reason_le hr
    rw [hnone] at hle
    cases r with
    | none => exact hr
    | _ => exact absurd hle (by decide)
  · intro hall
    by_contra hsome
    exact hall _ (objects_reason hsome)

/-! ## Two batches -/

/-- One batch is no worse than another in any respect. What is said of doubles here makes them
numbers. -/
structure NoWorseThan (d c : Case) : Prop where
  items : c.items ≤ d.items
  speedup : c.speedup ≤ d.speedup
  minItems : d.policy.minItems ≤ c.policy.minItems
  minSpeedup : d.policy.minSpeedup ≤ c.policy.minSpeedup
  cliff : d.cliff = none ∨ ∃ k k', c.cliff = some k ∧ d.cliff = some k' ∧ k ≤ k'
  threads : 0 < d.threads ∧ (0 < c.threads → d.threads ≤ c.threads)
  contention : d.policy.contentionBeta = none ∨ d.beta.sufficient = false ∨
    c.beta.sufficient = true ∧ ∃ limit limit', c.policy.contentionBeta = some limit ∧
      d.policy.contentionBeta = some limit' ∧ d.beta.beta ≤ c.beta.beta ∧ limit ≤ limit'

theorem cliffInReach_of_noWorse (hthreads : 0 < d.threads ∧ (0 < c.threads → d.threads ≤ c.threads))
    (hcliff : d.cliff = none ∨ ∃ k k', c.cliff = some k ∧ d.cliff = some k' ∧ k ≤ k')
    (h : cliffInReach d.cliff d.threads = true) : cliffInReach c.cliff c.threads = true := by
  rcases hcliff with hnone | ⟨k, k', hk, hk', hle⟩
  · rw [hnone] at h
    cases h
  · rw [hk'] at h
    rw [hk]
    simp only [cliffInReach, Option.any_some, Bool.or_eq_true, decide_eq_true_eq] at h ⊢
    omega

theorem contended_iff {policy : Policy Float} {beta : Estimate Float} :
    contended policy beta = true ↔
      ∃ limit, policy.contentionBeta = some limit ∧ beta.sufficient = true ∧ limit ≤ beta.beta := by
  simp [contended, Option.any_eq_true]

/-- What `Objects` to the better batch objects to the worse one, rule by rule. -/
theorem NoWorseThan.objects (h : d.NoWorseThan c) {r : Reason} (hr : d.Objects r) :
    c.Objects r := by
  cases r with
  | none => exact hr
  | notEnoughItems =>
    show c.items < c.policy.minItems
    calc c.items ≤ d.items := h.items
      _ < d.policy.minItems := hr
      _ ≤ c.policy.minItems := h.minItems
  | lowSpeedup => exact lt_of_le_of_lt h.speedup (lt_of_lt_of_le hr h.minSpeedup)
  | cliffDetected => exact cliffInReach_of_noWorse h.threads h.cliff hr
  | contentionLow =>
    obtain ⟨limit', hlimit', hsufficient', hle⟩ := contended_iff.mp hr
    rcases h.contention with hoff | hinsufficient | ⟨hsufficient, limit, _, hlimit, hsame, hbeta,
      hlimits⟩
    · rw [hoff] at hlimit'
      cases hlimit'
    · rw [hinsufficient] at hsufficient'
      cases hsufficient'
    · rw [hlimit'] at hsame
      cases hsame
      exact contended_iff.mpr ⟨limit, hlimit, hsufficient, le_trans hlimits (le_trans hle hbeta)⟩

end Case

/-- **The veto is monotone.** A batch is approved exactly if there is no reason against it. If one
batch is `NoWorseThan` another in any respect, it gets at least as far with the rules, in terms of
`Reason.rank`. So an approval is not lost by more items, more speedup or fewer threads, all else
being equal. -/
theorem veto_is_monotone (c : Case) :
    (c.decision.approved = true ↔ c.decision.reason = .none) ∧
    (∀ d : Case, d.NoWorseThan c → c.decision.reason.rank ≤ d.decision.reason.rank) ∧
    ∀ items speedup threads, c.items ≤ items → c.speedup ≤ speedup →
      0 < threads ∧ (0 < c.threads → threads ≤ c.threads) → c.decision.approved = true →
        Decision.approved (Case.decision { c with items, speedup, threads }) = true := by
  refine ⟨Case.approved_iff, fun d hd => ?_, ?_⟩
  · by_cases hnone : d.decision.reason = .none
    · rw [hnone]
      exact c.decision.reason.rank_le_four
    · exact Case.rank_reason_le (hd.objects (Case.objects_reason hnone))
  · intro items speedup threads hitems hspeedup hthreads happroved
    rw [Case.approved_iff_forall] at happroved ⊢
    rintro (_ | _ | _ | _ | _) hobjects
    · exact hobjects
    · exact happroved .notEnoughItems (hitems.trans_lt hobjects)
    · exact happroved .lowSpeedup (lt_of_le_of_lt hspeedup hobjects)
    · refine happroved .cliffDetected (Case.cliffInReach_of_noWorse hthreads ?_ hobjects)
      show c.cliff = none ∨ ∃ k k', c.cliff = some k ∧ c.cliff = some k' ∧ k ≤ k'
      cases c.cliff with
      | none => exact .inl rfl
      | some k => exact .inr ⟨k, k, rfl, rfl, Int.le_refl k⟩
    · exact happroved .contentionLow hobjects

/-- A batch of 400 items for which 4 threads would do, but which is to have 16, beyond a cliff
at 8. -/
def crowdedCase : Case := ⟨⟨100, 1.5, some 0.9⟩, 400, 2.5, ⟨0.95, 20, 0, true⟩, some 8, 16⟩

/-- A batch for fewer threads, which is no longer vetoed for the cliff but for the blocking ratio;
with a smaller ratio than the limit as well it is approved. -/
theorem veto_is_monotone_crowded :
    let fewer : Case := { crowdedCase with threads := 4 }
    let calmer : Case := { fewer with beta := ⟨0.5, 20, 0, true⟩ }
    fewer.NoWorseThan crowdedCase ∧ calmer.NoWorseThan fewer ∧
      crowdedCase.decision.reason.rank ≤ fewer.decision.reason.rank ∧
      fewer.decision.reason.rank ≤ calmer.decision.reason.rank ∧
      crowdedCase.decision.reason = .cliffDetected ∧ fewer.decision.reason = .contentionLow ∧
      calmer.decision.approved = true := by
  intro fewer calmer
  have hfewer : fewer.NoWorseThan crowdedCase :=
    ⟨by decide, by decide, by decide, by decide, .inr ⟨8, 8, rfl, rfl, by decide⟩, by decide,
      .inr (.inr ⟨rfl, 0.9, 0.9, rfl, rfl, by decide, by decide⟩)⟩
  have hcalmer : calmer.NoWorseThan fewer :=
    ⟨by decide, by decide, by decide, by decide, .inr ⟨8, 8, rfl, rfl, by decide⟩, by decide,
      .inr (.inr ⟨rfl, 0.9, 0.9, rfl, rfl, by decide, by decide⟩)⟩
  exact ⟨hfewer, hcalmer, (veto_is_monotone crowdedCase).2.1 fewer hfewer,
    (veto_is_monotone fewer).2.1 calmer hcalmer, by decide, by decide, by decide⟩

/-! ## Limits -/

namespace Case

/-- The batch keeps all limits: it has enough items and speedup, stays below the cliff, and below
the limit on the blocking ratio if there is one and the estimate is sufficient. -/
structure KeepsLimits (c : Case) : Prop where
  items : c.policy.minItems ≤ c.items
  speedup : c.policy.minSpeedup ≤ c.speedup
  cliff : ∀ k, c.cliff = some k → 0 < c.threads ∧ c.threads < k
  contention : ∀ limit, c.policy.contentionBeta = some limit → c.beta.sufficient = true →
    c.beta.beta < limit

/-- The estimates that the veto relies on are numbers. Where one is not, every comparison with it
fails, and no rule objects because of it. -/
structure Readable (c : Case) : Prop where
  speedup : c.speedup.isNaN = false
  beta : c.policy.contentionBeta ≠ none → c.beta.sufficient = true → c.beta.beta.isNaN = false

variable {c : Case}

theorem cliffInReach_eq_false_iff :
    ¬cliffInReach c.cliff c.threads = true ↔ ∀ k, c.cliff = some k → 0 < c.threads ∧
      c.threads < k := by
  cases c.cliff <;> simp [cliffInReach]

theorem KeepsLimits.readable (h : c.KeepsLimits) : c.Readable where
  speedup := (le_iff.mp h.speedup).2.1
  beta hon hsufficient := by
    obtain ⟨limit, hlimit⟩ := Option.ne_none_iff_exists'.mp hon
    exact (lt_iff.mp (h.contention limit hlimit hsufficient)).1

theorem KeepsLimits.approved (h : c.KeepsLimits) : c.decision.approved = true := by
  rw [approved_iff_forall]
  rintro (_ | _ | _ | _ | _) hobjects
  · exact hobjects
  · exact absurd hobjects (Nat.not_lt.mpr h.items)
  · exact absurd hobjects (not_lt_iff.mpr (.inl h.speedup))
  · exact cliffInReach_eq_false_iff.mpr h.cliff hobjects
  · obtain ⟨limit, hlimit, hsufficient, hle⟩ := contended_iff.mp hobjects
    exact absurd hle (not_le_iff.mpr (.inl (h.contention limit hlimit hsufficient)))

/-- In a `Usable` policy the limits are numbers, so a rule does not object because the limit is kept
or because the estimate is not a number. -/
theorem keepsLimits_of_approved (hpolicy : c.policy.Usable) (happroved : c.decision.approved = true)
    (hreadable : c.Readable) : c.KeepsLimits := by
  rw [approved_iff_forall] at happroved
  refine ⟨Nat.not_lt.mp (happroved .notEnoughItems), ?_,
    cliffInReach_eq_false_iff.mp (happroved .cliffDetected), ?_⟩
  · have hlimit : c.policy.minSpeedup.isNaN = false := (lt_iff.mp hpolicy.minSpeedup).2.1
    refine (not_lt_iff.mp (happroved .lowSpeedup)).resolve_right ?_
    rw [hreadable.speedup, hlimit]
    decide
  · intro limit hlimit hsufficient
    have hnumber : limit.isNaN = false := (le_iff.mp (hpolicy.contentionBeta limit hlimit).2).1
    have hbeta := hreadable.beta (Option.ne_none_iff_exists'.mpr ⟨limit, hlimit⟩) hsufficient
    have hbelow : ¬limit ≤ c.beta.beta := fun hle =>
      happroved .contentionLow (contended_iff.mpr ⟨limit, hlimit, hsufficient, hle⟩)
    refine (not_le_iff.mp hbelow).resolve_right ?_
    rw [hnumber, hbeta]
    decide

end Case

/-- **What an approval says of the limits.** With a usable policy, a batch that keeps all limits,
`KeepsLimits`, is approved. A batch that is approved keeps all limits exactly if the expected
speedup is a number, and so is the blocking ratio if the policy looks at it, `Readable`: no rule
objects to an estimate that is not a number. -/
theorem approval_sound_iff {c : Case} (hpolicy : c.policy.problem? = none) :
    (c.KeepsLimits → c.decision.approved = true) ∧
    (c.decision.approved = true → (c.KeepsLimits ↔ c.Readable)) := by
  have husable := (Policy.problem?_eq_none_iff c.policy).mp hpolicy
  refine ⟨Case.KeepsLimits.approved, fun happroved =>
    ⟨Case.KeepsLimits.readable, fun hreadable => ?_⟩⟩
  exact Case.keepsLimits_of_approved husable happroved hreadable

/-- A batch just at the limits, with infinite speedup. -/
theorem approval_sound_iff_atLimits :
    let c : Case := ⟨⟨100, 1.1, some 1.0⟩, 100, 1.0 / 0.0, ⟨0.999, 20, 0, true⟩, some 5, 4⟩
    c.policy.problem? = none ∧ c.decision.approved = true ∧ c.KeepsLimits := by
  intro c
  have hpolicy : c.policy.problem? = none := by decide
  have happroved : c.decision.approved = true := by decide
  exact ⟨hpolicy, happroved, ((approval_sound_iff hpolicy).2 happroved).mpr ⟨by decide,
    fun _ _ => by decide⟩⟩

/-- A speedup that is not a number is not below the limit, nor a blocking ratio above it: both
batches are approved. -/
theorem unreadable_estimates_are_approved :
    let slow : Case := ⟨.default, 100, 0.0 / 0.0, ⟨0.5, 20, 0, true⟩, none, 4⟩
    let busy : Case := ⟨⟨100, 1.1, some 0.9⟩, 100, 2.0, ⟨0.0 / 0.0, 20, 0, true⟩, none, 4⟩
    (slow.policy.problem? = none ∧ slow.decision.approved = true ∧
      ¬slow.policy.minSpeedup ≤ slow.speedup) ∧
      busy.policy.problem? = none ∧ busy.decision.approved = true ∧ ¬busy.beta.beta < 0.9 := by
  decide

end Headroom.Veto
