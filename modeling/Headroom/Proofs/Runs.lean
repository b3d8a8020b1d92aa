import Headroom.Pool.Step
import Mathlib.Data.List.Induction

/-!
# Runs of a pool

A run is a list of events that leads from one state to another, `p.steps es = some q`. This module
has what the theorems about all runs share:

* **`steps_induction`**: what holds at the start and is kept by every step holds after every run,
  together with the events so far.
* **`During`**: the event at a position of a run and the state that it happens in. A theorem about
  the past of a state names what happened by it.
* **`submissions`**: the tasks that a run hands in. The ticket of a task is its position there.
* **`Staged`**, **`Orderly`**: the runs in which the parts of each shutdown come in their order, and
  those in which nobody comes between the look and the closing of one.
-/

namespace Headroom.Pool

variable {α : Type}

/-! ## Composition -/

@[simp] theorem steps_nil (p : Pool α) : p.steps [] = some p := rfl

/-- A run over `xs ++ ys` is the run over `xs` followed by the run over `ys` from the pool it
reached, if it reached one. Every split of a run into episodes goes through this equation. -/
theorem steps_append (p : Pool α) (xs ys : List (Event α)) :
    p.steps (xs ++ ys) = (p.steps xs).bind fun q => q.steps ys := by
  induction xs generalizing p with
  | nil => rfl
  | cons e xs ih =>
    simp only [List.cons_append, steps]
    cases p.step e with
    | none => rfl
    | some q => exact ih q

/-- Two runs (`steps`) that meet in a pool are one run over their events. -/
theorem steps_trans {p m q : Pool α} {es fs : List (Event α)} (h : p.steps es = some m)
    (h' : m.steps fs = some q) :
    p.steps (es ++ fs) = some q := by
  rw [steps_append, h]
  exact h'

/-- A step and a run from where it leads are a run: `steps` read from its first event. -/
theorem steps_cons {p m q : Pool α} {e : Event α} {es : List (Event α)} (h : p.step e = some m)
    (h' : m.steps es = some q) : p.steps (e :: es) = some q := by
  rw [steps, h]
  exact h'

@[simp] theorem steps_singleton (p : Pool α) (e : Event α) : p.steps [e] = p.step e := by
  cases h : p.step e <;> simp [steps, h]

/-- A run seen from its last event. The run lemmas go by induction on this side, since an invariant
is known of the pool before the last step and `Moves` speaks of that step. -/
theorem steps_snoc {p q : Pool α} {es : List (Event α)} {e : Event α} :
    p.steps (es ++ [e]) = some q ↔ ∃ m, p.steps es = some m ∧ m.step e = some q := by
  rw [steps_append, Option.bind_eq_some_iff]
  simp

/-- **Induction over runs.** The motive may speak about the events so far; each case adds one at the
end. -/
@[elab_as_elim]
theorem steps_induction {start : Pool α}
    {motive : (es : List (Event α)) → (p : Pool α) → start.steps es = some p →
      Prop} (nil : motive [] start rfl)
    (snoc : ∀ es p e q (hrun : start.steps es = some p) (hstep : p.step e = some q),
      motive es p hrun →
      motive (es ++ [e]) q (steps_snoc.mpr ⟨p, hrun, hstep⟩))
    {es : List (Event α)} {p : Pool α} (h : start.steps es = some p) : motive es p h := by
  induction es using List.reverseRecOn generalizing p with
  | nil => cases h; exact nil
  | append_singleton es e ih =>
    obtain ⟨m, hm, he⟩ := steps_snoc.mp h
    exact snoc es m e p hm he (ih hm)

/-! ## The past of a state -/

/-- The event at position `i` of a run from `start`, and the state `q` that it happens in. -/
def During (start : Pool α) (es : List (Event α)) (i : Nat) (q : Pool α) (e : Event α) : Prop :=
  start.steps (es.take i) = some q ∧ es[i]? = some e

theorem During.append {start q : Pool α} {es : List (Event α)} {i : Nat} {e : Event α}
    (h : During start es i q e) (more : List (Event α)) : During start (es ++ more) i q e := by
  obtain ⟨hrun, he⟩ := h
  have hi : i < es.length := (List.getElem?_eq_some_iff.mp he).1
  exact ⟨by rwa [List.take_append_of_le_length (Nat.le_of_lt hi)], by
    rwa [List.getElem?_append_left hi]⟩

/-- What happened before an event is part of the past of the state that it happened in. -/
theorem During.take {start q : Pool α} {es : List (Event α)} {i j : Nat} {e : Event α}
    (h : During start es i q e) (hij : i < j) : During start (es.take j) i q e := by
  refine ⟨?_, ?_⟩
  · rw [List.take_take, Nat.min_eq_left (Nat.le_of_lt hij)]
    exact h.1
  · rw [List.getElem?_take_of_lt hij]
    exact h.2

/-- The event that extends a run happens in the pool that the run has reached, under the number of
events before it. -/
theorem During.last {start q : Pool α} {es : List (Event α)} (h : start.steps es = some q)
    (e : Event α) :
    During start (es ++ [e]) es.length q e := by
  refine ⟨?_, by simp⟩
  rwa [List.take_left]

/-- What happens after an event is the rest of the run: the event leads to a pool, and from there
the remaining events lead to the end. -/
theorem During.next {start p q : Pool α} {es : List (Event α)} {i : Nat} {e : Event α}
    (hd : During start es i q e) (h : start.steps es = some p) :
    ∃ r, q.step e = some r ∧ r.steps (es.drop (i + 1)) = some p := by
  obtain ⟨hi, he⟩ := List.getElem?_eq_some_iff.mp hd.2
  have hsplit : es = es.take i ++ e :: es.drop (i + 1) := by
    rw [← he, ← List.drop_eq_getElem_cons hi, List.take_append_drop]
  rw [hsplit, steps_append, hd.1] at h
  exact Option.bind_eq_some_iff.mp h

/-- The past of a run (`During`) with one more event is the past without it, and that event. -/
theorem during_snoc {start q : Pool α} {es : List (Event α)} {i : Nat} {e e' : Event α} :
    During start (es ++ [e']) i q e ↔
      During start es i q e ∨ (i = es.length ∧ start.steps es = some q ∧ e = e') := by
  constructor
  · rintro ⟨hrun, he⟩
    rcases Nat.lt_trichotomy i es.length with hi | hi | hi
    · refine .inl ⟨?_, ?_⟩
      · rwa [List.take_append_of_le_length (Nat.le_of_lt hi)] at hrun
      · rwa [List.getElem?_append_left hi] at he
    · subst hi
      rw [List.take_left] at hrun
      simp only [List.getElem?_concat_length, Option.some.injEq] at he
      exact .inr ⟨rfl, hrun, he.symm⟩
    · rw [List.getElem?_eq_none (by simp; omega)] at he
      cases he
  · rintro (h | ⟨rfl, hrun, rfl⟩)
    · exact h.append _
    · exact .last hrun e

/-! ## What a run hands in -/

/-- The index and the body of a task that enters the queue. An index is taken before, by `number`,
and may never enter. -/
def Event.submission? : Event α → Option (Nat × Result α)
  | .enqueue index body => some (index, body)
  | _ => none

/-- The tasks that a run hands in, in order. The position in this list is the ticket of the task. -/
def submissions (es : List (Event α)) : List (Nat × Result α) := es.filterMap Event.submission?

theorem submissions_append (es fs : List (Event α)) :
    submissions (es ++ fs) = submissions es ++ submissions fs :=
  List.filterMap_append

/-- The tasks of a run that is longer by one event. Only `submit` hands a task in, so for all other
events nothing is added. -/
theorem submissions_snoc (es : List (Event α)) (e : Event α) :
    submissions (es ++ [e]) = submissions es ++ e.submission?.toList := by
  cases h : e.submission? <;> simp [submissions, h]

theorem submissions_of_take {es : List (Event α)} {i t : Nat} {task : Nat × Result α}
    (h : (submissions (es.take i))[t]? = some task) : (submissions es)[t]? = some task := by
  have ht : t < (submissions (es.take i)).length := (List.getElem?_eq_some_iff.mp h).1
  rw [← List.take_append_drop i es, submissions_append, List.getElem?_append_left ht, h]

/-! ## Runs in which shutdowns come in order

`Pool.step` lets each part of a shutdown happen at any time. A program does them in order. Before it
closes the queue it looks whether the pool has to be started for the jobs in it, and others may come
between the look and the closing. -/

/-- When the parts of a shutdown may come: the phase moves once the queue is closed, and a shutdown
that waits ends after all workers have exited. -/
def Event.InTurn (p : Pool α) : Event α → Prop
  | .mark => p.closing = true
  | .collect | .conclude _ => p.closing = true ∧ p.live = 0 ∧ p.phase ≠ .created ∧
      p.phase ≠ .running
  | _ => True

/-- When the parts of a shutdown may come, if the look and the closing are one: a queue that is to
be drained is closed only if somebody can drain it. -/
def Event.Due (p : Pool α) (e : Event α) : Prop :=
  e.InTurn p ∧ ∀ wait, e = .close wait → p.startsFirst wait = false

/-- Runs in which every event comes when `may` allows it. `Staged` and `Orderly` are two cases. -/
inductive Paced (may : Pool α → Event α → Prop) (start : Pool α) : List (Event α) → Pool α → Prop
  | nil : Paced may start [] start
  | snoc {es : List (Event α)} {p q : Pool α} {e : Event α} :
      Paced may start es p → may p e → p.step e = some q → Paced may start (es ++ [e]) q

/-- Runs in which the parts of every shutdown come in order. Callers, workers and the monitor may
interleave in any other way. -/
abbrev Staged (start : Pool α) (es : List (Event α)) (p : Pool α) : Prop :=
  Paced Event.InTurn start es p

/-- Runs in which the parts of every shutdown come in order, and nobody comes between the look and
the closing of one. -/
abbrev Orderly (start : Pool α) (es : List (Event α)) (p : Pool α) : Prop :=
  Paced Event.Due start es p

namespace Paced

variable {may : Pool α → Event α → Prop} {start p m q : Pool α} {es fs : List (Event α)}

/-- A run that keeps to the pace `may` is a run of the pool. -/
theorem steps (h : Paced may start es p) : start.steps es = some p := by
  induction h with
  | nil => rfl
  | snoc _ _ hstep ih => exact steps_snoc.mpr ⟨_, ih, hstep⟩

theorem trans (h : Paced may start es p) (h' : Paced may p fs q) :
    Paced may start (es ++ fs) q := by
  induction h' with
  | nil => simpa using h
  | snoc _ hmay hstep ih =>
    rw [← List.append_assoc]
    exact .snoc ih hmay hstep

/-- Between two `Paced` runs one step can be taken, if the pace allows it where it is taken. -/
theorem cons {e : Event α} (h : Paced may start es p) (hmay : may p e) (hstep : p.step e = some m)
    (h' : Paced may m fs q) : Paced may start (es ++ e :: fs) q := by
  rw [List.append_cons]
  exact (h.snoc hmay hstep).trans h'

end Paced

end Headroom.Pool
