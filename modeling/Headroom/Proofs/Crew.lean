import Headroom.Proofs.Moves
import Mathlib.Data.List.Nodup

/-!
# The workers of a pool

Workers are a list with distinct numbers. Most steps change the stage of one worker and leave the
others alone, so the list is read in two ways:

* as a function from numbers to stages, `stage?`, with `stage?_setStage`, `stage?_recruit` and
  `Roster.stage?_reap` for the three ways in which it changes;
* as a collection to be counted, `standing`, with `Roster.countP_setStage`: a change of stage moves
  one worker from one count to another.

`Roster` is the invariant behind both: numbers are distinct and were given out before, and `live`
counts the workers that have not exited. `roster_of_steps` has it for every run.
-/

namespace Headroom.Pool

variable {α : Type}

/-! ## Stages by number -/

/-- `setStage` changes what a worker does and not who it is: the list of numbers stays. -/
theorem setStage_ids (id : Nat) (s : Stage α) (p : Pool α) :
    (p.setStage id s).workers.map Worker.id = p.workers.map Worker.id := by
  simp only [setStage, List.map_map]
  refine List.map_congr_left fun w _ => ?_
  show (if w.id == id then { w with stage := s } else w).id = w.id
  split <;> rfl

/-- The stages after `setStage`, by number. Worker `id` has the new stage if there is such a worker;
all others keep theirs. -/
theorem stage?_setStage (id : Nat) (s : Stage α) (p : Pool α) (i : Nat) :
    (p.setStage id s).stage? i = if i = id then (p.stage? i).map fun _ => s else p.stage? i := by
  have hid (w : Worker α) : (if w.id == id then { w with stage := s } else w).id = w.id := by
    split <;> rfl
  simp only [stage?, setStage, List.find?_map, Function.comp_def, hid]
  cases hfind : p.workers.find? (·.id == i) with
  | none => simp
  | some w =>
    have hw : w.id = i := by simpa using List.find?_some hfind
    by_cases h : i = id <;> simp [hw, h]

/-- The stages after `crew` has been appended. The numbers below `n` are those of the old workers
and the others those of the new ones, so no lookup can find a worker of the wrong part. -/
theorem stage?_recruit {p : Pool α} {n : Nat} (hnew : ∀ w ∈ p.workers, w.id < n)
    (crew : List (Worker α)) (hcrew : ∀ w ∈ crew, n ≤ w.id) (i : Nat) :
    ((p.workers ++ crew).find? (·.id == i)).map Worker.stage =
      if i < n then p.stage? i else (crew.find? (·.id == i)).map Worker.stage := by
  rw [List.find?_append, stage?]
  -- the numbers of the two parts do not meet, so only one of them can have worker `i`
  split
  · next hi =>
    have : crew.find? (·.id == i) = none := by
      refine List.find?_eq_none.mpr fun w hw => ?_
      have := hcrew w hw
      simp only [beq_iff_eq]
      omega
    rw [this, Option.or_none]
  · next hi =>
    have : p.workers.find? (·.id == i) = none := by
      refine List.find?_eq_none.mpr fun w hw => ?_
      have := hnew w hw
      simp only [beq_iff_eq]
      omega
    rw [this, Option.none_or]

/-! ## The roster -/

@[simp] theorem Stage.isGone_gone : (Stage.gone : Stage α).isGone = true := rfl

/-- `gone` is the only stage that counts as exited; in particular a worker that is `leaving` is
still one of those that `live` counts. -/
theorem Stage.isGone_iff {s : Stage α} : s.isGone = true ↔ s = .gone := by
  cases s <;> simp [isGone]

/-- Workers are known by distinct numbers that were given out before, and those that have not exited
are counted. -/
structure Roster (p : Pool α) : Prop where
  distinct : (p.workers.map Worker.id).Nodup
  below : ∀ w ∈ p.workers, w.id < p.nextWorker
  live : p.live = p.workers.countP fun w => !w.stage.isGone

namespace Roster

variable {p q : Pool α}

/-- A worker with its stage splits the list `workers`, and the others have other numbers. -/
theorem split (h : Roster p) {id : Nat} {t : Stage α} (hat : p.stage? id = some t) :
    ∃ l r, p.workers = l ++ ⟨id, t⟩ :: r ∧ (∀ w ∈ l, w.id ≠ id) ∧ ∀ w ∈ r, w.id ≠ id := by
  obtain ⟨w, hfind, rfl⟩ := Option.map_eq_some_iff.mp hat
  obtain ⟨hid, l, r, hsplit, hl⟩ := List.find?_eq_some_iff_append.mp hfind
  obtain ⟨i, s⟩ := w
  obtain rfl : i = id := by simpa using hid
  refine ⟨l, r, hsplit, fun w hw => by simpa using hl w hw, fun w hw heq => ?_⟩
  have hdist := h.distinct
  rw [hsplit, List.map_append, List.map_cons, List.nodup_append] at hdist
  have hnot : i ∉ r.map Worker.id := (List.nodup_cons.mp hdist.2.1).1
  exact hnot (List.mem_map.mpr ⟨w, hw, heq⟩)

/-- The list around worker `id`. Its number is distinct, so `setStage` replaces one place of the
list and leaves `l` and `r` as they are. All counts after a change of stage are read from this
split. -/
theorem setStage_workers (h : Roster p) {id : Nat} {t : Stage α} (hat : p.stage? id = some t) :
    ∃ l r, p.workers = l ++ ⟨id, t⟩ :: r ∧ ∀ s, (p.setStage id s).workers = l ++ ⟨id, s⟩ :: r := by
  obtain ⟨l, r, hsplit, hl, hr⟩ := h.split hat
  refine ⟨l, r, hsplit, fun s => ?_⟩
  have same (ws : List (Worker α)) (hws : ∀ w ∈ ws, w.id ≠ id) :
      ws.map (fun w => if w.id == id then { w with stage := s } else w) = ws := by
    refine (List.map_congr_left fun w hw => ?_).trans (List.map_id ws)
    simp [hws w hw]
  simp only [setStage, hsplit, List.map_append, List.map_cons, same l hl, same r hr]
  simp

/-- A change of stage moves one worker from what counts the old stage to what counts the new one. -/
theorem countP_setStage (h : Roster p) {id : Nat} {t : Stage α} (hat : p.stage? id = some t)
    (s : Stage α) (f : Worker α → Bool) :
    (p.setStage id s).workers.countP f + (if f ⟨id, t⟩ then 1 else 0) =
      p.workers.countP f + if f ⟨id, s⟩ then 1 else 0 := by
  obtain ⟨l, r, hsplit, hset⟩ := h.setStage_workers hat
  rw [hset, hsplit]
  simp only [List.countP_append, List.countP_cons]
  omega

theorem mem_workers {id : Nat} {t : Stage α} (hat : p.stage? id = some t) :
    ⟨id, t⟩ ∈ p.workers := by
  obtain ⟨w, hfind, rfl⟩ := Option.map_eq_some_iff.mp hat
  have hid : w.id = id := by simpa using List.find?_some hfind
  exact hid ▸ List.mem_of_find?_eq_some hfind

theorem live_pos (h : Roster p) {id : Nat} {t : Stage α} (hat : p.stage? id = some t)
    (ht : t.isGone = false) : 0 < p.live := by
  have hpos : 0 < p.workers.countP fun w => !w.stage.isGone :=
    List.countP_pos_iff.mpr ⟨⟨id, t⟩, mem_workers hat, by simp [ht]⟩
  rw [h.live]
  omega

theorem nobody (h : p.workers = []) {id : Nat} {t : Stage α} (hat : p.stage? id = some t) :
    False := by
  have hmem := mem_workers hat
  rw [h] at hmem
  cases hmem

theorem live_of_nobody (h : Roster p) (hworkers : p.workers = []) : p.live = 0 := by
  rw [h.live, hworkers]
  rfl

/-- Numbers are distinct, so looking up a worker's number finds that worker. -/
theorem stage?_of_mem (h : Roster p) {w : Worker α} (hw : w ∈ p.workers) :
    p.stage? w.id = some w.stage := by
  have hdist := h.distinct
  obtain ⟨l, r, hsplit⟩ := List.append_of_mem hw
  rw [hsplit, List.map_append, List.map_cons, List.nodup_append] at hdist
  have hl : l.find? (·.id == w.id) = none := by
    refine List.find?_eq_none.mpr fun v hv => ?_
    simpa using hdist.2.2 v.id (List.mem_map_of_mem hv) w.id (by simp)
  simp [stage?, hsplit, List.find?_append, hl]

/-- Forgetting the workers that have exited, with `reap`, leaves the others where they stand. -/
theorem stage?_reap (h : Roster p) (i : Nat) (s : Stage α) :
    p.reap.stage? i = some s ↔ p.stage? i = some s ∧ s.isGone = false := by
  constructor
  · intro hat
    have hmem := mem_workers hat
    simp only [reap, List.mem_filter] at hmem
    exact ⟨h.stage?_of_mem hmem.1, by simpa using hmem.2⟩
  · rintro ⟨hat, hgone⟩
    have hfind : p.reap.workers.find? (·.id == i) = some ⟨i, s⟩ := by
      obtain ⟨l, r, hsplit, hl, _⟩ := h.split hat
      have : (l.filter fun w => !w.stage.isGone).find? (·.id == i) = none :=
        List.find?_eq_none.mpr fun w hw => by simpa using hl w (List.mem_of_mem_filter hw)
      simp [reap, hsplit, hgone, List.find?_append, this]
    simp [stage?, hfind]

/-! ### Every step keeps the roster -/

/-- `Roster` reads three fields of the pool. A step that leaves them alone keeps it. -/
theorem same (h : Roster p) (hworkers : q.workers = p.workers) (hnext : q.nextWorker = p.nextWorker)
    (hlive : q.live = p.live) : Roster q := by
  refine ⟨?_, ?_, ?_⟩
  · rw [hworkers]; exact h.distinct
  · rw [hworkers, hnext]; exact h.below
  · rw [hworkers, hlive]; exact h.live

/-- No number is given out by `setStage`, so all stay below `nextWorker`. -/
theorem below_setStage (h : Roster p) (id : Nat) (s : Stage α) :
    ∀ w ∈ (p.setStage id s).workers, w.id < p.nextWorker := by
  intro w hw
  have hid : w.id ∈ p.workers.map Worker.id := by
    rw [← setStage_ids id s]
    exact List.mem_map_of_mem hw
  obtain ⟨v, hv, heq⟩ := List.mem_map.mp hid
  exact heq ▸ h.below v hv

/-- A worker that goes on working keeps its number and stays counted by `live`, whatever it turns
to. -/
theorem setStage (h : Roster p) {id : Nat} {t : Stage α} (hat : p.stage? id = some t) (s : Stage α)
    (ht : t.isGone = false) (hs : s.isGone = false) : Roster (p.setStage id s) := by
  refine ⟨by rw [setStage_ids]; exact h.distinct, h.below_setStage id s, ?_⟩
  have hcount := h.countP_setStage hat s fun w => !w.stage.isGone
  have hlive := h.live
  simp only [ht, hs, Bool.not_false, if_true] at hcount
  show p.live = _
  omega

/-- A worker that exits is taken off `live` in the step that makes it `gone`. -/
theorem exit (h : Roster p) {id : Nat} {t : Stage α} (hat : p.stage? id = some t)
    (ht : t.isGone = false) :
    Roster ({ p with live := p.live - 1 }.setStage id .gone) := by
  refine ⟨?_, h.below_setStage id .gone, ?_⟩
  · rw [setStage_ids]; exact h.distinct
  · have hcount := h.countP_setStage hat .gone fun w => !w.stage.isGone
    have hlive := h.live
    simp only [ht, Stage.isGone_gone, Bool.not_false, Bool.not_true, if_true, Bool.false_eq_true,
      if_false] at hcount
    show p.live - 1 = ((p.setStage id .gone).workers.countP fun w => !w.stage.isGone : Nat)
    omega

/-- The workers that `recruits` appends have fresh numbers, one for each of the `count` attempts,
and `live` grows by those whose thread was launched. -/
theorem recruit (h : Roster p) (launches : Nat → Bool) (count : Nat)
    (hworkers : q.workers = p.workers ++ recruits launches p.nextWorker count)
    (hnext : q.nextWorker = p.nextWorker + count)
    (hlive : q.live = p.live + (recruits (α := α) launches p.nextWorker count).length) :
    Roster q := by
  have hids : (recruits (α := α) launches p.nextWorker count).map Worker.id =
      (List.range' p.nextWorker count).filter launches := by
    simp [recruits, Function.comp_def]
  have hfree : ∀ w ∈ recruits (α := α) launches p.nextWorker count, (!w.stage.isGone) = true := by
    intro w hw
    obtain ⟨n, _, rfl⟩ := List.mem_map.mp hw
    rfl
  refine ⟨?_, ?_, ?_⟩
  · rw [hworkers, List.map_append, hids, List.nodup_append]
    -- the workers before have smaller numbers, the new ones have those from the next on
    refine ⟨h.distinct, (List.nodup_range').filter _, fun a ha b hb => ?_⟩
    obtain ⟨w, hw, rfl⟩ := List.mem_map.mp ha
    have hlt := h.below w hw
    have hge := (List.mem_range'_1.mp (List.mem_of_mem_filter hb)).1
    omega
  · intro w hw
    rw [hworkers, List.mem_append] at hw
    rcases hw with hw | hw
    · have := h.below w hw
      omega
    · have hmem : w.id ∈ (List.range' p.nextWorker count).filter launches :=
        hids ▸ List.mem_map_of_mem hw
      have := (List.mem_range'_1.mp (List.mem_of_mem_filter hmem)).2
      omega
  · rw [hworkers, hlive, h.live, List.countP_append, List.countP_eq_length.mpr hfree]
    simp

/-- Joining removes workers that are `gone`. None of them was counted by `live`. -/
theorem reap (h : Roster p) : Roster p.reap where
  distinct := h.distinct.sublist (List.filter_sublist.map _)
  below w hw := h.below w (List.mem_of_mem_filter hw)
  live := by
    have hlive := h.live
    simp only [Pool.reap, List.countP_filter, Bool.and_self]
    exact hlive

/-- A decision of the controller appends at most one worker, with a number that was not given out
before. -/
theorem resize (h : Roster p) {launches : Nat → Bool} {e : Estimate Float}
    (hq : Resizing launches e p q) :
    Roster q := by
  cases hq with
  | hold | keep | dismiss => exact h.same rfl rfl rfl
  | hire _ _ _ hlaunch =>
    refine h.recruit launches 1 ?_ rfl ?_ <;> simp [recruits, hlaunch]
  | refused _ _ _ hlaunch =>
    refine h.recruit launches 1 ?_ rfl ?_ <;> simp [recruits, hlaunch, noted]

/-- Every step keeps the roster. The cases are those of `Moves`: most leave the workers alone or
change one stage. -/
theorem move (h : Roster p) {e : Event α} (hm : Moves p e q) : Roster q := by
  cases hm with
  | number | enqueue | startLate | drain | cancel | markUnstarted | markRunning | markLate
  | concludeSame | conclude | survey | readQueued | readCompleted | readFailed =>
    exact h.same rfl rfl rfl
  -- no worker is added, but the numbers of the attempts are used up
  | @startFails launches _ _ _ hnone =>
    exact h.recruit launches _ (by simp [hnone]) rfl (by simp [hnone])
  | @start launches => exact h.recruit launches _ rfl rfl rfl
  | collect hlive => exact ⟨List.nodup_nil, fun w hw => by simp at hw, by simpa using hlive⟩
  | @look _ l _ _ _ hresize =>
    have hwatched : Roster (p.watched l.now) := h.same rfl rfl rfl
    exact (hwatched.resize hresize).reap.same rfl rfl rfl
  | lookIdle => exact h.reap.same rfl rfl rfl
  | retire hat | depart hat => exact (h.setStage hat .leaving rfl rfl).same rfl rfl rfl
  | take hat => exact (h.setStage hat (.claimed _) rfl rfl).same rfl rfl rfl
  | begin hat => exact h.setStage hat (.running _ _) rfl rfl
  | beginFails hat | finishFails hat => exact h.setStage hat (.broken _ _) rfl rfl
  | run hat => exact (h.setStage hat (.ran _ _) rfl rfl).same rfl rfl rfl
  | finish hat => exact (h.setStage hat (.measured _) rfl rfl).same rfl rfl rfl
  | count hat | countFailed hat => exact (h.setStage hat .free rfl rfl).same rfl rfl rfl
  | countFailing hat => exact (h.setStage hat (.counted _) rfl rfl).same rfl rfl rfl
  | shut hat => exact (h.setStage hat (.closing _ _) rfl rfl).same rfl rfl rfl
  | shutAgain hat | yield hat => exact (h.setStage hat (.abandoning _ _) rfl rfl).same rfl rfl rfl
  | abandon hat => exact (h.setStage hat .leaving rfl rfl).same rfl rfl rfl
  | leave hat => exact h.exit hat rfl
  | leaveLast hat => exact (h.exit hat rfl).same rfl rfl rfl

end Roster

theorem roster_create (config : Config) (now : Int) : Roster (create (α := α) config now) :=
  ⟨List.nodup_nil, nofun, rfl⟩

/-- Every pool that a run reaches has a `Roster`, with no condition on the run. -/
theorem roster_of_steps {config : Config} {now : Int} {es : List (Event α)} {p : Pool α}
    (h : (create config now).steps es = some p) : Roster p := by
  induction h using steps_induction with
  | nil => exact roster_create config now
  | snoc es p e q _ hstep ih => exact ih.move (moves_of_step hstep)

/-! ## What workers have in hand

A view reads something off the stage of a worker, such as its job. Views that see nothing at a
worker that is new or gone change only by what workers do themselves. -/

/-- What `f` sees at a worker. -/
def view {β : Type} (f : Stage α → Option β) (p : Pool α) (i : Nat) : Option β :=
  (p.stage? i).bind f

variable {β : Type} {f : Stage α → Option β} {p q : Pool α}

/-- A `view` of a worker whose stage is known is the view of that stage. -/
theorem view_of_stage {i : Nat} {s : Stage α} (hat : p.stage? i = some s) : p.view f i = f s := by
  rw [view, hat, Option.bind_some]

/-- A `view` finds something only through a worker that is there. -/
theorem view_eq_some {i : Nat} {b : β} :
    p.view f i = some b ↔ ∃ s, p.stage? i = some s ∧ f s = some b :=
  Option.bind_eq_some_iff

/-- What is seen of the workers after one of them changed its stage: `f` of the new stage for that
one, and for the others what was seen before. -/
theorem view_setStage {id : Nat} {t : Stage α} (hat : p.stage? id = some t) (s : Stage α)
    (i : Nat) :
    (p.setStage id s).view f i = if i = id then f s else p.view f i := by
  rw [view, stage?_setStage]
  split
  · next h => rw [h, hat]; rfl
  · rfl

/-- A change of stage that `f` does not tell apart is not seen through `f`. -/
theorem view_setStage_same {id : Nat} {t s : Stage α} (hat : p.stage? id = some t)
    (hf : f s = f t) (i : Nat) :
    (p.setStage id s).view f i = p.view f i := by
  rw [view_setStage hat]
  split
  · next heq => rw [heq, view_of_stage hat, hf]
  · rfl

/-- What is seen at a worker whose new stage shows the same as the old one, or nothing, was seen
before. -/
theorem view_of_setStage {id i : Nat} {t s : Stage α} {b : β} (hat : p.stage? id = some t)
    (hf : f s = f t ∨ f s = none) (hi : (p.setStage id s).view f i = some b) :
    p.view f i = some b := by
  rw [view_setStage hat] at hi
  split at hi
  · next heq =>
    rcases hf with hf | hf
    · rw [heq, view_of_stage hat, ← hf, hi]
    · rw [hf] at hi; cases hi
  · exact hi

/-- New workers are `free`, so a view that shows nothing of a free worker is not changed by them. -/
theorem Roster.view_append (h : Roster p) {crew : List (Worker α)}
    (hworkers : q.workers = p.workers ++ crew)
    (hcrew : ∀ w ∈ crew, p.nextWorker ≤ w.id ∧ w.stage = .free) (hfree : f .free = none) (i : Nat) :
    q.view f i = p.view f i := by
  rw [view, stage?, hworkers, stage?_recruit h.below crew fun w hw => (hcrew w hw).1]
  split
  · rfl
  · next hi =>
    have hnone : p.stage? i = none := by
      cases hat : p.stage? i with
      | none => rfl
      | some s => exact absurd (h.below _ (mem_workers hat)) hi
    rw [view, hnone]
    cases hfind : crew.find? (·.id == i) with
    | none => rfl
    | some w =>
      show f w.stage = none
      rw [(hcrew w (List.mem_of_find?_eq_some hfind)).2, hfree]

/-- Joining removes workers of which `f` shows nothing. -/
theorem Roster.view_reap (h : Roster p) (hgone : f .gone = none) (i : Nat) :
    p.reap.view f i = p.view f i := by
  refine Option.ext fun b => ?_
  simp only [view_eq_some, h.stage?_reap]
  constructor
  · rintro ⟨s, ⟨hat, _⟩, hb⟩
    exact ⟨s, hat, hb⟩
  · rintro ⟨s, hat, hb⟩
    refine ⟨s, ⟨hat, ?_⟩, hb⟩
    -- a worker at which something is seen is not gone
    rw [← Bool.not_eq_true, Stage.isGone_iff]
    rintro rfl
    rw [hgone] at hb
    cases hb

/-- The controller's decisions are not seen through a view that shows nothing of a `free` worker. -/
theorem Roster.view_resize (h : Roster p) {launches : Nat → Bool} {e : Estimate Float}
    (hq : Resizing launches e p q) (hfree : f .free = none) (i : Nat) :
    q.view f i = p.view f i := by
  cases hq with
  | hire => exact h.view_append rfl (by simp) hfree i
  | _ => rfl

/-- When all workers have exited, there is nothing to see: a view that shows nothing of a worker
that is `gone` shows nothing at all. -/
theorem Roster.view_of_live (h : Roster p) (hlive : p.live = 0) (hgone : f .gone = none) (i : Nat) :
    p.view f i = none := by
  cases hat : p.stage? i with
  | none => rw [view, hat]; rfl
  | some s =>
    have hzero : p.workers.countP (fun w => !w.stage.isGone) = 0 := by
      have := h.live
      omega
    have hs : s.isGone = true := by simpa using List.countP_eq_zero.mp hzero _ (mem_workers hat)
    rw [view_of_stage hat, Stage.isGone_iff.mp hs, hgone]

/-- Whether a worker acts in an event, and not a caller or the monitor. -/
def Event.byWorker : Event α → Bool
  | .work .. => true
  | _ => false

/-- Callers and the monitor (all but `byWorker` events) do not change what workers have in hand. -/
theorem Roster.view_move (h : Roster p) {e : Event α} (hm : Moves p e q) (he : e.byWorker = false)
    (hfree : f .free = none) (hgone : f .gone = none) (i : Nat) : q.view f i = p.view f i := by
  cases hm with
  | number | enqueue | startLate | startFails | drain | cancel | markUnstarted | markRunning
  | markLate | concludeSame | conclude | survey | readQueued | readCompleted | readFailed => rfl
  | start =>
    refine h.view_append rfl (fun w hw => ?_) hfree i
    obtain ⟨n, hn, rfl⟩ := List.mem_map.mp hw
    exact ⟨(List.mem_range'_1.mp (List.mem_of_mem_filter hn)).1, rfl⟩
  | collect hlive => exact (h.view_of_live hlive hgone i).symm
  | @look _ l _ _ _ hresize =>
    have hwatched : Roster (p.watched l.now) := h.same rfl rfl rfl
    exact ((hwatched.resize hresize).view_reap hgone i).trans (hwatched.view_resize hresize hfree i)
  | lookIdle => exact h.view_reap hgone i
  | retire | depart | take | begin | beginFails | run | finish | finishFails | count | countFailing
  | countFailed | shut | shutAgain | yield | abandon | leave | leaveLast => cases he

/-! ## How many workers stand where

A count of workers by their stage. Counts that leave out workers that are new or gone change only by
what workers do themselves. -/

/-- How many workers have a stage that `f` accepts. -/
def standing (f : Stage α → Bool) (p : Pool α) : Nat := p.workers.countP fun w => f w.stage

section

variable {p q : Pool α} {f : Stage α → Bool}

/-- A change of stage moves one worker between the counts. With both sides of the equation as sums
it needs no case split on whether `f` holds before or after. -/
theorem Roster.standing_setStage (h : Roster p) {id : Nat} {t : Stage α}
    (hat : p.stage? id = some t) (s : Stage α) (f : Stage α → Bool) :
    (p.setStage id s).standing f + (if f t then 1 else 0) = p.standing f + if f s then 1 else 0 :=
  h.countP_setStage hat s fun w => f w.stage

/-- A change of stage that `f` does not tell apart leaves the count alone. -/
theorem Roster.standing_same (h : Roster p) {id : Nat} {t s : Stage α} (hat : p.stage? id = some t)
    (hf : f s = f t) : (p.setStage id s).standing f = p.standing f := by
  have hcount := h.standing_setStage hat s f
  rw [hf] at hcount
  omega

/-- New workers are `free` and do not count where `f` excludes free workers. -/
theorem standing_append {crew : List (Worker α)} (hworkers : q.workers = p.workers ++ crew)
    (hcrew : ∀ w ∈ crew, w.stage = .free) (hfree : f .free = false) :
    q.standing f = p.standing f := by
  have hnone : crew.countP (fun w => f w.stage) = 0 :=
    List.countP_eq_zero.mpr fun w hw => by simp [hcrew w hw, hfree]
  rw [standing, hworkers, List.countP_append, hnone, standing, Nat.add_zero]

/-- The workers that are joined did not count where `f` excludes those that are `gone`. -/
theorem standing_reap (hgone : f .gone = false) : p.reap.standing f = p.standing f := by
  simp only [standing, reap, List.countP_filter]
  refine List.countP_congr fun w _ => ?_
  cases hs : w.stage <;> simp [Stage.isGone, hgone]

theorem Roster.standing_of_live (h : Roster p) (hlive : p.live = 0) (hgone : f .gone = false) :
    p.standing f = 0 := by
  have hzero : p.workers.countP (fun w => !w.stage.isGone) = 0 := by
    have := h.live
    omega
  refine List.countP_eq_zero.mpr fun w hw => ?_
  have hs : w.stage.isGone = true := by simpa using List.countP_eq_zero.mp hzero w hw
  rw [Stage.isGone_iff.mp hs, hgone]
  exact Bool.false_ne_true

/-- The controller's decisions leave a count alone that excludes `free` workers. -/
theorem standing_resize {launches : Nat → Bool} {e : Estimate Float} (hq : Resizing launches e p q)
    (hfree : f .free = false) : q.standing f = p.standing f := by
  cases hq with
  | hire => exact standing_append rfl (by simp) hfree
  | _ => rfl

/-- Callers and the monitor (all but `byWorker` events) do not change where workers stand. -/
theorem Roster.standing_move (h : Roster p) {e : Event α} (hm : Moves p e q)
    (he : e.byWorker = false) (hfree : f .free = false) (hgone : f .gone = false) :
    q.standing f = p.standing f := by
  cases hm with
  | number | enqueue | startLate | startFails | drain | cancel | markUnstarted | markRunning
  | markLate | concludeSame | conclude | survey | readQueued | readCompleted | readFailed => rfl
  | start =>
    refine standing_append rfl (fun w hw => ?_) hfree
    obtain ⟨n, _, rfl⟩ := List.mem_map.mp hw
    rfl
  | collect hlive => exact (h.standing_of_live hlive hgone).symm
  | @look _ l _ r _ hresize =>
    have hreaped : r.reap.standing f = r.standing f := standing_reap hgone
    exact hreaped.trans (standing_resize (p := p.watched l.now) hresize hfree)
  | lookIdle => exact standing_reap (p := p) hgone
  | retire | depart | take | begin | beginFails | run | finish | finishFails | count | countFailing
  | countFailed | shut | shutAgain | yield | abandon | leave | leaveLast => cases he

end

end Headroom.Pool
