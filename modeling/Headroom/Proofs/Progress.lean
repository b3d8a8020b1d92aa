import Headroom.Proofs.Failure
import Mathlib.Algebra.GroupWithZero.Nat

/-!
# Progress

What happens in a pool that is not shut down and in which no reading fails. Callers, workers and the
monitor may still interleave in any way.

* **`Soundly`**: runs of such a pool. It stays open and running, no worker ever has to give up a
  job, and the only result that a ticket can get is what its own body leaves behind
  (`Soundly.result`).
* **`Moves.effort_lt`**: every action of a worker leaves less to do. So workers come to rest if
  nobody gives them more.
* **`Soundly.settled_of_idle`**: when they have, the queue is empty and every ticket has its result.
-/

namespace Headroom.Pool

variable {α : Type}

/-! ## Sound runs -/

/-- The action of a worker is no reading that fails. -/
def Action.Sound : Action → Prop
  | .begin (.error _) _ | .finish (.error _) _ => False
  | _ => True

/-- The event is neither part of a shutdown nor a reading that fails. -/
def Event.Sound : Event α → Prop
  | .close _ | .mark | .collect | .conclude _ => False
  | .work _ action => action.Sound
  | _ => True

/-- A run of `Sound` events only. -/
structure Soundly (p : Pool α) (es : List (Event α)) (q : Pool α) : Prop where
  run : p.steps es = some q
  sound : ∀ e ∈ es, e.Sound

theorem Soundly.refl (p : Pool α) : Soundly p [] p := ⟨rfl, by simp⟩

theorem Soundly.trans {p m q : Pool α} {es fs : List (Event α)} (h : Soundly p es m)
    (h' : Soundly m fs q) :
    Soundly p (es ++ fs) q :=
  ⟨steps_trans h.run h'.run, List.forall_mem_append.mpr ⟨h.sound, h'.sound⟩⟩

theorem Soundly.step {p q : Pool α} {e : Event α} (hstep : p.step e = some q) (he : e.Sound) :
    Soundly p [e] q :=
  ⟨by rwa [steps_singleton], by simpa using he⟩

namespace Soundly

variable {config : Config} {now : Int} {es : List (Event α)} {p : Pool α}

theorem not_doomed (h : Soundly (create config now) es p) (id : Nat) :
    p.view Stage.doomed? id = none := by
  rw [Option.eq_none_iff_forall_ne_some]
  rintro ⟨job, what⟩ hdoomed
  obtain ⟨_, _, _, _, _, ⟨_, he⟩ | ⟨_, he⟩⟩ := reading_failed h.run hdoomed
  · exact h.sound _ (List.mem_of_getElem? he)
  · exact h.sound _ (List.mem_of_getElem? he)

/-- In a run that goes `Soundly` nobody closes the queue: no caller does, and no worker has a reason
to. -/
theorem stays_open (h : Soundly (create config now) es p) : p.closing = false := by
  obtain ⟨hrun, hsound⟩ := h
  induction hrun using steps_induction with
  | nil => rfl
  | snoc es p e q hrun hstep ih =>
    have hbefore : ∀ e ∈ es, e.Sound := fun e he => hsound e (List.mem_append_left _ he)
    have he : e.Sound := hsound e (by simp)
    have hclosing := ih hbefore
    cases moves_of_step hstep with
    | drain | cancel => exact he.elim
    | shut hat => cases (view_of_stage hat).symm.trans (not_doomed ⟨hrun, hbefore⟩ _)
    | look _ hresize => cases hresize <;> exact hclosing
    | _ => exact hclosing

theorem accepting (h : Soundly (create config now) es p) : p.accepting = true := by
  rw [(sealed_of_steps h.run).accepting, h.stays_open]
  rfl

theorem running (h : Soundly (create config now) es p) (hphase : p.phase = .running)
    {fs : List (Event α)} {q : Pool α} (hmore : Soundly p fs q) : q.phase = .running := by
  obtain ⟨hmore, hsound⟩ := hmore
  induction hmore using steps_induction with
  | nil => exact hphase
  | snoc fs m e q hm hstep ih =>
    have hbefore : ∀ e ∈ fs, e.Sound := fun e he => hsound e (List.mem_append_left _ he)
    have he : e.Sound := hsound e (by simp)
    have hrunning := ih hbefore
    cases moves_of_step hstep with
    | start => rfl
    | markUnstarted | markRunning | markLate | concludeSame | conclude | collect => exact he.elim
    | yield hat => cases (view_of_stage hat).symm.trans (not_doomed (h.trans ⟨hm, hbefore⟩) _)
    | leaveLast _ _ hlate => cases hrunning.symm.trans hlate
    | look _ hresize => cases hresize <;> exact hrunning
    | _ => exact hrunning

/-- **The result of a task is what its own body leaves behind**, in every run that
goes `Soundly`. -/
theorem result (h : Soundly (create config now) es p) {t : Nat} {r : Result α}
    (hr : p.result? t = some r) {index : Nat} {body : Result α}
    (htask : (submissions es)[t]? = some (index, body)) : r = Job.outcome ⟨t, index, body⟩ := by
  have unsound {i : Nat} {q : Pool α} {e : Event α} (hd : During (create config now) es i q e) :
      e.Sound :=
    h.sound e (List.mem_of_getElem? hd.2)
  rcases result_cases h.run hr htask with ⟨_, hown⟩ | ⟨⟨i, q, hd, _⟩, _⟩ | ⟨what, _, hlost⟩
  · exact hown
  · exact (unsound hd).elim
  · rcases hlost with ⟨i, q, id, job, hd, hat, _⟩ | ⟨id, f, _, i, q, now', job, hd, _⟩
    · have hbefore : Soundly (create config now) (es.take i) q :=
        ⟨hd.1, fun e he => h.sound e (List.mem_of_mem_take he)⟩
      cases (view_of_stage hat).symm.trans (hbefore.not_doomed id)
    · exact (unsound hd).elim

end Soundly

/-! ## What is left to do -/

/-- How many steps a worker may still take in its stage; what it takes from the queue
counts there. -/
def Stage.effort : Stage α → Nat
  | .claimed _ => 7
  | .running .. => 6
  | .ran .. => 5
  | .measured _ | .broken .. => 4
  | .counted _ | .closing .. => 3
  | .abandoning .. | .free => 2
  | .leaving => 1
  | .gone => 0

/-- A bound for what workers can do if nobody gives them more: six steps for each job that waits,
and what each worker has still to do. -/
def effort (p : Pool α) : Nat := 6 * p.queue.length + (p.workers.map fun w => w.stage.effort).sum

theorem effort_le (p : Pool α) : p.effort ≤ 6 * p.queue.length + 7 * p.workers.length := by
  have hstage (s : Stage α) : s.effort ≤ 7 := by cases s <;> simp [Stage.effort]
  refine Nat.add_le_add_left ?_ _
  induction p.workers with
  | nil => exact Nat.le_refl _
  | cons w rest ih =>
    have := hstage w.stage
    rw [List.map_cons, List.sum_cons, List.length_cons]
    omega

theorem Roster.effort_setStage {p : Pool α} (h : Roster p) {id : Nat} {t : Stage α}
    (hat : p.stage? id = some t) (s : Stage α) :
    ((p.setStage id s).workers.map fun w => w.stage.effort).sum + t.effort =
      (p.workers.map fun w => w.stage.effort).sum + s.effort := by
  obtain ⟨l, r, hp, hq⟩ := h.setStage_workers hat
  rw [hp, hq]
  simp only [List.map_append, List.map_cons, List.sum_append, List.sum_cons]
  omega

/-- **Every action of a worker leaves less to do**, in terms of `effort`. This is the measure by
which workers come to rest. -/
theorem Moves.effort_lt {p q : Pool α} {id : Nat} {action : Action}
    (hm : Moves p (.work id action) q) (h : Roster p) :
    q.effort < p.effort := by
  -- the worker gets nearer to the exit, or a job leaves the queue for it
  have lighter {t s : Stage α} (hat : p.stage? id = some t)
      (hworkers : q.workers = (p.setStage id s).workers)
      (hqueue : 6 * q.queue.length + s.effort < 6 * p.queue.length + t.effort) :
      q.effort < p.effort := by
    have := h.effort_setStage hat s
    rw [effort, effort, hworkers]
    omega
  cases hm with
  | retire hat | depart hat => exact lighter hat rfl (by simp [setStage, Stage.effort])
  | @take _ job rest hat _ hqueue =>
    -- a job weighs more in the queue than the stages it goes through
    refine lighter hat rfl ?_
    rw [hqueue, List.length_cons]
    show 6 * rest.length + 7 < 6 * (rest.length + 1) + 2
    omega
  | begin hat | beginFails hat | run hat | finish hat | finishFails hat | count hat
  | countFailing hat | countFailed hat | shutAgain hat | yield hat | abandon hat | leave hat
  | leaveLast hat =>
    exact lighter hat rfl (by simp [setStage, settle, Stage.effort])
  | shut hat =>
    refine lighter hat rfl ?_
    show 0 + 3 < 6 * p.queue.length + 4
    omega

section

variable {config : Config} {now : Int} {es : List (Event α)} {p : Pool α}

/-- Workers that are left to themselves come to an end, after at most `effort` steps. -/
theorem length_le_effort (hrun : (create config now).steps es = some p) {fs : List (Event α)}
    {q : Pool α} (hmore : p.steps fs = some q) (hworkers : ∀ e ∈ fs, e.byWorker = true) :
    fs.length + q.effort ≤ p.effort := by
  induction hmore using steps_induction with
  | nil => simp
  | snoc fs m e q hm hstep ih =>
    have hbefore := ih fun e he => hworkers e (List.mem_append_left _ he)
    have he : e.byWorker = true := hworkers e (by simp)
    cases e with
    | work id action =>
      have hlt := (moves_of_step hstep).effort_lt (roster_of_steps (steps_trans hrun hm))
      rw [List.length_append, List.length_singleton]
      omega
    | _ => cases he

/-! ## At rest -/

/-- No worker can do anything but fail: every sound action is impossible. -/
def Still (p : Pool α) : Prop := ∀ id action, action.Sound → p.step (.work id action) = none

/-- Every worker waits at a queue that has nothing for it, or has exited, or waits to do so for the
lock that somebody holds. -/
def Idle (p : Pool α) : Prop :=
  ∀ w ∈ p.workers, w.stage = .gone ∨ (w.stage = .free ∧ p.quiescent = true) ∨
    (w.stage = .leaving ∧ p.draft.isSome = true)

/-- Unless a reading has failed, workers that can do nothing (`Still`) have nothing to
do (`Idle`). -/
theorem idle_of_still (hroster : Roster p) (hsound : ∀ id, p.view Stage.doomed? id = none)
    (hstill : Still p) :
    Idle p := by
  intro w hw
  have hat := hroster.stage?_of_mem hw
  have hdoomed := hsound w.id
  rw [view_of_stage hat] at hdoomed
  -- in every other stage there is something that the worker can do
  have busy (action : Action) (hsound : action.Sound) (q : Pool α)
      (hwork : p.work w.id action = some q) :
      (Event.work (α := α) w.id action).locks = true ∧ p.draft.isSome = true := by
    have hnone := hstill w.id action hsound
    by_contra hfree
    rw [step, if_neg (by simpa using hfree), happen, hwork] at hnone
    cases hnone
  cases hstage : w.stage with
  | gone => exact .inl rfl
  | free =>
    refine .inr (.inl ⟨rfl, Decidable.byContradiction fun hbusy => ?_⟩)
    cases (busy .claim trivial (p.claim w.id) (by simp only [work, hat, hstage, if_neg hbusy])).1
  | claimed job =>
    cases (busy (.begin (.ok none) 0) trivial (p.begin w.id job (.ok none) 0)
      (by simp only [work, hat, hstage])).1
  | running job watch =>
    cases (busy .run trivial (p.run w.id job watch) (by simp only [work, hat, hstage])).1
  | ran job watch =>
    cases (busy (.finish (.ok none) 0) trivial (p.finish w.id job watch (.ok none) 0)
      (by simp only [work, hat, hstage])).1
  | measured job =>
    cases (busy .count trivial (p.count w.id job) (by simp only [work, hat, hstage])).1
  | counted job =>
    cases (busy .countFailed trivial (p.countFailed w.id) (by simp only [work, hat, hstage])).1
  | leaving =>
    exact .inr (.inr ⟨rfl, (busy (.leave 0) trivial (p.leave w.id 0)
      (by simp only [work, hat, hstage])).2⟩)
  | broken | closing | abandoning => rw [hstage] at hdoomed; cases hdoomed

theorem Soundly.idle_of_still (h : Soundly (create config now) es p) (hstill : Still p) : Idle p :=
  Pool.idle_of_still (roster_of_steps h.run) h.not_doomed hstill

/-- Where workers are `Idle`, jobs in the queue are all that can be pending. -/
theorem Idle.settled (hidle : Idle p) (hrun : (create config now).steps es = some p)
    (hqueue : p.queue = []) {t : Nat} (ht : t < p.accepted) : (p.result? t).isSome := by
  refine Option.isSome_iff_ne_none.mpr fun hnone => ?_
  have hleft : t < p.departed := by rwa [departed, hqueue, List.length_nil, Nat.sub_zero]
  obtain ⟨i, job, hi, _⟩ := (tracked_of_steps hrun).pending_held t hleft hnone
  obtain ⟨s, hat, hjob⟩ := view_eq_some.mp hi
  rcases hidle _ (Roster.mem_workers hat) with hs | ⟨hs, _⟩ | ⟨hs, _⟩ <;>
    · cases hs
      cases hjob

/-- Where workers are `Idle` and one of them is in its loop, the queue is empty. -/
theorem Idle.queue_eq_nil (hidle : Idle p) (hloop : 0 < p.inLoop) : p.queue = [] := by
  obtain ⟨w, hw, hlooping⟩ := List.countP_pos_iff.mp hloop
  rcases hidle w hw with hgone | ⟨_, hquiet⟩ | ⟨hleaving, _⟩
  · rw [hgone] at hlooping
    cases hlooping
  · simp only [quiescent, Bool.and_eq_true, List.isEmpty_iff] at hquiet
    exact hquiet.1.1
  · rw [hleaving] at hlooping
    cases hlooping

/-- **When the workers of a running pool rest, everything is done.** One of them is in its loop, and
it would not rest if a job were waiting. -/
theorem Soundly.settled_of_idle (hmin : 1 ≤ config.minWorkers)
    (hmax : config.minWorkers ≤ config.maxWorkers) (h : Soundly (create config now) es p)
    (hphase : p.phase = .running) (hidle : Idle p) :
    p.queue = [] ∧ ∀ t < p.accepted, (p.result? t).isSome := by
  have hroster := roster_of_steps h.run
  obtain ⟨count, hpos, _, hstaffed, _⟩ := staffed_of_steps hmin hmax h.run
  have hbalanced := hstaffed.balanced ⟨hphase, .inl h.stays_open⟩
  have hloop : 0 < p.inLoop := by
    have := hbalanced.inLoop
    have := hbalanced.least
    have := hstaffed.retiring
    omega
  have hqueue := hidle.queue_eq_nil hloop
  exact ⟨hqueue, fun t ht => hidle.settled h.run hqueue ht⟩

/-- Workers can always come to rest, by sound steps of their own. By induction on `effort`. -/
theorem comes_to_rest (hrun : (create config now).steps es = some p) :
    ∃ fs q, Soundly p fs q ∧ (∀ e ∈ fs, e.byWorker = true) ∧ Still q := by
  induction hn : p.effort using Nat.strongRecOn generalizing es p with
  | ind n ih =>
    by_cases hstill : Still p
    · exact ⟨[], p, .refl p, by simp, hstill⟩
    · simp only [Still, not_forall] at hstill
      obtain ⟨id, action, hsound, hstep⟩ := hstill
      obtain ⟨m, hm⟩ := Option.ne_none_iff_exists'.mp hstep
      have hone : Soundly p [.work id action] m := .step hm hsound
      have hlt := (moves_of_step hm).effort_lt (roster_of_steps hrun)
      obtain ⟨fs, q, hrest, hworkers, hstill⟩ :=
        ih m.effort (hn ▸ hlt) (steps_trans hrun hone.run) rfl
      exact ⟨.work id action :: fs, q, hone.trans hrest, by simpa [Event.byWorker] using hworkers,
        hstill⟩

theorem Soundly.comes_to_rest (h : Soundly (create config now) es p) :
    ∃ fs q, Soundly p fs q ∧ (∀ e ∈ fs, e.byWorker = true) ∧ Still q :=
  Pool.comes_to_rest h.run

end

end Headroom.Pool
