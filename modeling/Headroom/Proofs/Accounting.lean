import Headroom.Proofs.Crew

/-!
# Accounts of a pool

Two invariants of every run, and what they say about a pool that is running.

* **`Sealed`**: a pool takes jobs until its queue is closed, and a worker that could not measure a
  job has closed it and emptied it before anybody can tell.
* **`Staffed`**: while a running pool may still have to do with jobs, its workers in their loop are
  those that it wants and those that it has asked to leave. `Staffed.resize` is the point of it: a
  worker is hired only when nobody is asked to leave, and otherwise one of those is kept.

The main statement is `workers_balance`.
-/

namespace Headroom.Pool

variable {α : Type}

/-! ## The queue is closed before a failure shows -/

/-- Whether a worker is past closing the queue after it could not measure a job. -/
def Stage.failing : Stage α → Bool
  | .closing .. | .abandoning .. => true
  | _ => false

/-- A pool takes jobs until it is closed, and has no job left once a worker has failed. -/
structure Sealed (p : Pool α) : Prop where
  accepting : p.accepting = !p.closing
  failed : p.failure.isSome = true → p.closing = true ∧ p.queue = []
  failing : ∀ w ∈ p.workers, w.stage.failing = true → p.failure.isSome = true

/-- Whether some worker is `failing` after a change of stage depends on the new stage and on those
that were there before. -/
theorem failing_setStage {p : Pool α} {failed : Prop} {id : Nat} {s : Stage α}
    (h : ∀ w ∈ p.workers, w.stage.failing = true → failed) (hs : s.failing = true → failed) :
    ∀ w ∈ (p.setStage id s).workers, w.stage.failing = true → failed := by
  intro w hw hf
  obtain ⟨v, hv, rfl⟩ := List.mem_map.mp hw
  split at hf
  · exact hs hf
  · exact h v hv hf

namespace Sealed

variable {p q : Pool α}

/-- The controller does not touch what `Sealed` speaks of: new workers are `free`, and those that
are joined are `gone`. -/
theorem resize (h : Sealed p) {launches : Nat → Bool} {e : Estimate Float}
    (hq : Resizing launches e p q) :
    Sealed q := by
  cases hq with
  | hold | keep | refused | dismiss => exact ⟨h.accepting, h.failed, h.failing⟩
  | hire =>
    refine ⟨h.accepting, h.failed, fun w hw hf => ?_⟩
    rcases List.mem_append.mp hw with hw | hw
    · exact h.failing w hw hf
    · obtain rfl := List.mem_singleton.mp hw
      cases hf

/-- Every step keeps a pool sealed. `shut` notes a failure, closes the pool and empties the queue in
one step, and a worker becomes `failing` in that step or after it. -/
theorem move (h : Sealed p) {e : Event α} (hm : Moves p e q) : Sealed q := by
  cases hm with
  | number | startLate | startFails | markUnstarted | markRunning | markLate | concludeSame
  | conclude | survey | readQueued | readCompleted | readFailed =>
    exact ⟨h.accepting, h.failed, h.failing⟩
  | enqueue hopen =>
    -- a pool that has failed is closed, so nothing can enter it
    refine ⟨h.accepting, fun hf => ?_, h.failing⟩
    have hclosed := h.accepting
    rw [(h.failed hf).1, hopen] at hclosed
    cases hclosed
  | start =>
    refine ⟨h.accepting, h.failed, fun w hw hf => ?_⟩
    -- a worker that was just launched has not failed
    rcases List.mem_append.mp hw with hw | hw
    · exact h.failing w hw hf
    · obtain ⟨n, _, rfl⟩ := List.mem_map.mp hw
      cases hf
  | drain => exact ⟨rfl, fun hf => ⟨rfl, (h.failed hf).2⟩, h.failing⟩
  | cancel => exact ⟨rfl, fun _ => ⟨rfl, rfl⟩, h.failing⟩
  | collect => exact ⟨h.accepting, h.failed, nofun⟩
  | @look _ l _ _ _ hresize =>
    have hwatched : Sealed (p.watched l.now) := ⟨h.accepting, h.failed, h.failing⟩
    have hr := hwatched.resize hresize
    exact ⟨hr.accepting, hr.failed, fun w hw => hr.failing w (List.mem_of_mem_filter hw)⟩
  | lookIdle => exact ⟨h.accepting, h.failed, fun w hw => h.failing w (List.mem_of_mem_filter hw)⟩
  | take _ _ hqueue =>
    refine ⟨h.accepting, fun hf => ?_, failing_setStage h.failing nofun⟩
    -- the queue of a pool that has failed is empty, so there is nothing to take
    have hnil := (h.failed hf).2
    rw [hqueue] at hnil
    cases hnil
  | retire | depart | begin | beginFails | run | finish | finishFails | count | countFailing
  | countFailed | abandon | leave | leaveLast =>
    exact ⟨h.accepting, h.failed, failing_setStage h.failing nofun⟩
  | shut => exact ⟨rfl, fun _ => ⟨rfl, rfl⟩, fun _ _ _ => rfl⟩
  | shutAgain _ hagain => exact ⟨h.accepting, h.failed, failing_setStage h.failing fun _ => hagain⟩
  | yield hat =>
    have hfailed := h.failing _ (Roster.mem_workers hat) rfl
    exact ⟨h.accepting, h.failed, failing_setStage h.failing fun _ => hfailed⟩

end Sealed

theorem sealed_create (config : Config) (now : Int) : Sealed (create (α := α) config now) := by
  refine ⟨rfl, fun hf => ?_, fun w hw => ?_⟩
  · cases hf
  · cases hw

theorem Sealed.of_steps {p q : Pool α} (h : Sealed p) {es : List (Event α)}
    (hrun : p.steps es = some q) :
    Sealed q := by
  induction hrun using steps_induction with
  | nil => exact h
  | snoc es m e q _ hstep ih => exact ih.move (moves_of_step hstep)

/-- Every run from the creation of a pool reaches a `Sealed` one. -/
theorem sealed_of_steps {config : Config} {now : Int} {es : List (Event α)} {p : Pool α}
    (h : (create config now).steps es = some p) : Sealed p :=
  (sealed_create config now).of_steps h

/-! ## Workers in their loop -/

/-- Whether a worker is still in its loop: it may take another job. One that is `leaving` has left
the loop, although `live` still counts it. -/
def Stage.looping : Stage α → Bool
  | .leaving | .gone => false
  | _ => true

/-- How many workers are still in their loop. It is what `active` and `retiring` have to add
up to. -/
def inLoop (p : Pool α) : Nat := p.workers.countP fun w => w.stage.looping

/-- A change of stage moves `inLoop` by the one worker that it concerns, if at all. -/
theorem Roster.inLoop_setStage {p : Pool α} (h : Roster p) {id : Nat} {t : Stage α}
    (hat : p.stage? id = some t) (s : Stage α) :
    (p.setStage id s).inLoop + (if t.looping then 1 else 0) =
      p.inLoop + if s.looping then 1 else 0 :=
  h.countP_setStage hat s fun w => w.stage.looping

/-- Workers that are `gone` are not in the loop, so joining them changes nothing there. -/
theorem inLoop_reap (p : Pool α) : p.reap.inLoop = p.inLoop := by
  simp only [inLoop, reap, List.countP_filter]
  refine List.countP_congr fun w _ => ?_
  cases w.stage <;> simp [Stage.looping, Stage.isGone]

theorem inLoop_append {p q : Pool α} (crew : List (Worker α))
    (hworkers : q.workers = p.workers ++ crew) (hcrew : ∀ w ∈ crew, w.stage = .free) :
    q.inLoop = p.inLoop + crew.length := by
  have hall : crew.countP (fun w => w.stage.looping) = crew.length :=
    List.countP_eq_length.mpr fun w hw => by rw [hcrew w hw]; rfl
  rw [inLoop, hworkers, List.countP_append, hall, inLoop]

theorem Roster.inLoop_le_live {p : Pool α} (h : Roster p) : (p.inLoop : Int) ≤ p.live := by
  have hle : p.inLoop ≤ p.workers.countP fun w => !w.stage.isGone := by
    refine List.countP_mono_left fun w _ hw => ?_
    cases hs : w.stage <;> simp_all [Stage.looping, Stage.isGone]
  rw [h.live]
  omega

/-- A running pool that may still have to do with jobs: it takes more, or has some left. -/
def Serving (p : Pool α) : Prop := p.phase = .running ∧ (p.closing = false ∨ p.queue ≠ [])

/-- The workers in their loop are those that the pool wants and those that are asked to leave,
within bounds. -/
structure Balanced (floor : Int) (p : Pool α) : Prop where
  inLoop : p.inLoop = p.active + p.retiring
  least : floor ≤ p.active
  most : p.inLoop ≤ p.config.maxWorkers

/-- How the workers of a pool are accounted for: there are none before the start, and while the pool
is `Serving` the account is `Balanced`. When it has nothing left to do, workers leave without being
taken off `active`, so nothing is said of it then. -/
structure Staffed (floor : Int) (p : Pool α) : Prop where
  unstarted : p.phase = .created → p.workers = [] ∧ p.retiring = 0
  retiring : 0 ≤ p.retiring
  balanced : Serving p → Balanced floor p

namespace Staffed

variable {floor : Int} {p q : Pool α}

theorem started (h : Staffed floor p) {id : Nat} {t : Stage α} (hat : p.stage? id = some t) :
    p.phase ≠ .created := by
  intro hphase
  exact Roster.nobody (h.unstarted hphase).1 hat

/-- A worker is hired only when nobody is asked to leave, so that the limit holds for all in their
loop. -/
theorem resize (h : Staffed floor p) (hphase : p.phase = .running)
    (hfloor : floor ≤ p.config.minWorkers) {launches : Nat → Bool} {e : Estimate Float}
    (hq : Resizing launches e p q) : Staffed floor q := by
  have hret := h.retiring
  have hcreated : ¬p.phase = .created := by simp [hphase]
  cases hq with
  | hold | refused =>
    refine ⟨h.unstarted, hret, fun hs => ?_⟩
    obtain ⟨hin, hleast, hmost⟩ := h.balanced hs
    exact ⟨hin, hleast, hmost⟩
  | keep _ _ hpos =>
    -- a worker that was asked to leave may stay: the sum in the loop is the same
    refine ⟨fun hc => absurd hc hcreated, by show 0 ≤ p.retiring - 1; omega, fun hs => ?_⟩
    obtain ⟨hin, hleast, hmost⟩ := h.balanced hs
    exact ⟨by show (p.inLoop : Int) = p.active + 1 + (p.retiring - 1); omega,
      by show floor ≤ p.active + 1; omega, hmost⟩
  | hire _ hroom hnone =>
    -- nobody is asked to leave, so the loop has as many workers as count, and room for one more
    refine ⟨fun hc => absurd hc hcreated, hret, fun hs => ?_⟩
    obtain ⟨hin, hleast, hmost⟩ := h.balanced hs
    have hone :
        ({ p with workers := p.workers ++ [⟨p.nextWorker, .free⟩] } : Pool α).inLoop =
          p.inLoop + 1 :=
      inLoop_append [⟨p.nextWorker, .free⟩] rfl (by simp)
    refine ⟨?_, by show floor ≤ p.active + 1; omega, ?_⟩
    · show (({ p with workers := p.workers ++ [⟨p.nextWorker, .free⟩] } : Pool α).inLoop : Int) =
        p.active + 1 + p.retiring
      omega
    · show (({ p with workers := p.workers ++ [⟨p.nextWorker, .free⟩] } : Pool α).inLoop : Int) ≤
        p.config.maxWorkers
      omega
  | dismiss _ hmore =>
    refine ⟨fun hc => absurd hc hcreated, by show 0 ≤ p.retiring + 1; omega, fun hs => ?_⟩
    obtain ⟨hin, hleast, hmost⟩ := h.balanced hs
    exact ⟨by show (p.inLoop : Int) = p.active - 1 + (p.retiring + 1); omega,
      by show floor ≤ p.active - 1; omega, hmost⟩

/-- A start that launches a worker makes the pool `Staffed`, with the number of threads that were
launched as its least number of active workers. -/
theorem start (h : Staffed floor p) (hphase : p.phase = .created)
    (hmax : p.config.minWorkers ≤ p.config.maxWorkers) (launches : Nat → Bool) (monitor : Bool)
    (now : Int) (hsome : recruits (α := α) launches p.nextWorker p.config.minWorkers.toNat ≠ [])
    (beta : Estimate Float) :
    Staffed (recruits (α := α) launches p.nextWorker p.config.minWorkers.toNat).length
      ((p.opened launches monitor now).sketch beta 0.0 0 now) := by
  obtain ⟨hnobody, hret⟩ := h.unstarted hphase
  have hfree : ∀ w ∈ recruits (α := α) launches p.nextWorker p.config.minWorkers.toNat,
    w.stage = .free := by
    intro w hw
    obtain ⟨n, _, rfl⟩ := List.mem_map.mp hw
    rfl
  have hin : (p.opened launches monitor now).inLoop =
      p.inLoop + (recruits (α := α) launches p.nextWorker p.config.minWorkers.toNat).length :=
    inLoop_append _ rfl hfree
  -- nobody was there before, so those in their loop are those that were launched
  have hzero : p.inLoop = 0 := by rw [inLoop, hnobody]; rfl
  have hpos : (recruits (α := α) launches p.nextWorker p.config.minWorkers.toNat).length ≠ 0 := by
    simpa using hsome
  have hle := List.countP_le_length (p := launches)
    (l := List.range' p.nextWorker p.config.minWorkers.toNat)
  rw [← length_recruits (α := α), List.length_range'] at hle
  refine ⟨nofun, by show 0 ≤ p.retiring; omega, fun _ => ⟨?_, Int.le_refl _, ?_⟩⟩
  · show ((p.opened launches monitor now).inLoop : Int) =
      (recruits (α := α) launches p.nextWorker p.config.minWorkers.toNat).length + p.retiring
    omega
  · show ((p.opened launches monitor now).inLoop : Int) ≤ p.config.maxWorkers
    omega

/-- A step that touches neither the workers nor their accounts keeps a pool `Staffed`, unless it
starts to serve. -/
theorem carry (h : Staffed floor p) (hworkers : q.workers = p.workers)
    (hactive : q.active = p.active) (hretiring : q.retiring = p.retiring)
    (hconfig : q.config = p.config) (hcreated : q.phase = .created → p.phase = .created)
    (hserving : Serving q → Serving p) : Staffed floor q := by
  refine ⟨fun hc => ?_, hretiring ▸ h.retiring, fun hs => ?_⟩
  · rw [hworkers, hretiring]
    exact h.unstarted (hcreated hc)
  · obtain ⟨hin, hleast, hmost⟩ := h.balanced (hserving hs)
    have hsame : q.inLoop = p.inLoop := by rw [inLoop, hworkers, inLoop]
    exact ⟨by rw [hsame, hactive, hretiring]; exact hin, hactive ▸ hleast, by
      rw [hsame, hconfig]; exact hmost⟩

/-- A pool that was started and serves no jobs has no account to be `Balanced`. -/
theorem idle (hretiring : 0 ≤ q.retiring) (hphase : q.phase ≠ .created) (hidle : ¬Serving q) :
    Staffed floor q :=
  ⟨fun hc => absurd hc hphase, hretiring, fun hs => absurd hs hidle⟩

/-- A worker that stays in the loop changes neither `inLoop` nor what it has to add up to. -/
theorem setStage (h : Staffed floor p) (hroster : Roster p) {id : Nat} {t : Stage α}
    (hat : p.stage? id = some t) (s : Stage α) (ht : t.looping = true) (hs : s.looping = true) :
    Staffed floor (p.setStage id s) := by
  have hcount := hroster.inLoop_setStage hat s
  rw [ht, hs] at hcount
  have hsame : (p.setStage id s).inLoop = p.inLoop := by omega
  refine ⟨fun hc => absurd hc (h.started hat), h.retiring, fun hserving => ?_⟩
  obtain ⟨hin, hleast, hmost⟩ := h.balanced hserving
  exact ⟨by rw [hsame]; exact hin, hleast, by rw [hsame]; exact hmost⟩

/-- A worker that is `leaving` is out of the loop already. -/
theorem exit (h : Staffed floor p) (hroster : Roster p) {id : Nat}
    (hat : p.stage? id = some .leaving) :
    Staffed floor (p.setStage id .gone) := by
  have hcount := hroster.inLoop_setStage hat .gone
  have hsame : (p.setStage id .gone).inLoop = p.inLoop := hcount
  refine ⟨fun hc => absurd hc (h.started hat), h.retiring, fun hserving => ?_⟩
  obtain ⟨hin, hleast, hmost⟩ := h.balanced hserving
  exact ⟨by rw [hsame]; exact hin, hleast, by rw [hsame]; exact hmost⟩

theorem reap (h : Staffed floor p) : Staffed floor p.reap := by
  refine ⟨fun hc => ?_, h.retiring, fun hs => ?_⟩
  · obtain ⟨hnobody, hret⟩ := h.unstarted hc
    exact ⟨by simp [Pool.reap, hnobody], hret⟩
  · obtain ⟨hin, hleast, hmost⟩ := h.balanced hs
    exact ⟨by rw [inLoop_reap]; exact hin, hleast, by rw [inLoop_reap]; exact hmost⟩

/-- A worker that retires leaves the loop and is taken off `retiring` in the same step. -/
theorem retire (h : Staffed floor p) (hroster : Roster p) {id : Nat}
    (hat : p.stage? id = some .free) (hret : 0 < p.retiring) :
    Staffed floor ({ p with retiring := p.retiring - 1 }.setStage id .leaving) := by
  -- one worker less in its loop, and one less who is asked to leave
  have hcount : (p.setStage id .leaving).inLoop + 1 = p.inLoop :=
    hroster.inLoop_setStage hat .leaving
  refine ⟨fun hc => absurd hc (h.started hat), by show 0 ≤ p.retiring - 1; omega, fun hserving =>
    ?_⟩
  obtain ⟨hin, hleast, hmost⟩ := h.balanced hserving
  refine ⟨?_, hleast, ?_⟩
  · show ((p.setStage id .leaving).inLoop : Int) = p.active + (p.retiring - 1)
    omega
  · show ((p.setStage id .leaving).inLoop : Int) ≤ p.config.maxWorkers
    omega

/-- A pool that is closed and has nothing left to do is not `Serving` any more. -/
theorem not_serving_of_closed (hclosing : p.closing = true) (hqueue : p.queue = []) :
    ¬Serving p := by
  rintro ⟨_, hopen | hjobs⟩
  · rw [hclosing] at hopen
    cases hopen
  · exact hjobs hqueue

/-- Every step keeps a pool `Staffed`, except the one that opens it. -/
theorem move (h : Staffed floor p) (hroster : Roster p) (hsealed : Sealed p) (hpos : 1 ≤ floor)
    (hfloor : floor ≤ p.config.minWorkers) {e : Event α} (hm : Moves p e q)
    (hopens : q.phase = .running → p.phase = .running) : Staffed floor q := by
  have hret := h.retiring
  cases hm with
  | number | startLate | startFails | concludeSame | survey | readQueued | readCompleted
  | readFailed =>
    exact h.carry rfl rfl rfl rfl id id
  | start hphase => cases hphase.symm.trans (hopens rfl)
  | enqueue hopen =>
    have hclosing : p.closing = false := by simpa [hopen] using hsealed.accepting
    exact h.carry rfl rfl rfl rfl id fun hs => ⟨hs.1, .inl hclosing⟩
  | drain => exact h.carry rfl rfl rfl rfl id fun hs => ⟨hs.1, .inr (hs.2.resolve_left nofun)⟩
  | cancel => exact h.carry rfl rfl rfl rfl id fun hs => absurd hs (not_serving_of_closed rfl rfl)
  | markUnstarted | conclude => exact idle hret nofun fun hs => nomatch hs.1
  | markRunning =>
    refine idle hret ?_ fun hs => ?_
    · dsimp only; split <;> nofun
    · have := hs.1
      dsimp only at this
      split at this <;> cases this
  | markLate => exact h.carry rfl rfl rfl rfl id id
  | collect hlive =>
    -- a pool that serves has a worker in its loop, and so one that has not exited
    refine ⟨fun hc => ⟨rfl, (h.unstarted hc).2⟩, hret, fun hs => ?_⟩
    have hbal := h.balanced hs
    have hin := hbal.inLoop
    have hleast := hbal.least
    have hle := hroster.inLoop_le_live
    omega
  | @look _ l _ _ hphase hresize =>
    have hwatched : Staffed floor (p.watched l.now) := h.carry rfl rfl rfl rfl id id
    exact (hwatched.resize hphase hfloor hresize).reap.carry rfl rfl rfl rfl id id
  | lookIdle => exact h.reap.carry rfl rfl rfl rfl id id
  | retire hat hpos => exact h.retire hroster hat hpos
  | depart hat _ hqueue hclosing =>
    exact idle hret (h.started hat) (not_serving_of_closed (p := p.setStage _ .leaving) hclosing
      hqueue)
  | take hat _ hqueue =>
    have hserving : p.phase = .running → Serving p :=
      fun hphase => ⟨hphase, .inr (by simp [hqueue])⟩
    exact (h.setStage hroster hat (.claimed _) rfl rfl).carry rfl rfl rfl rfl id fun hs =>
      hserving hs.1
  | begin hat => exact h.setStage hroster hat (.running _ _) rfl rfl
  | beginFails hat | finishFails hat => exact h.setStage hroster hat (.broken _ _) rfl rfl
  | run hat => exact (h.setStage hroster hat (.ran _ _) rfl rfl).carry rfl rfl rfl rfl id id
  | finish hat => exact (h.setStage hroster hat (.measured _) rfl rfl).carry rfl rfl rfl rfl id id
  | count hat | countFailed hat =>
    exact (h.setStage hroster hat .free rfl rfl).carry rfl rfl rfl rfl id id
  | countFailing hat =>
    exact (h.setStage hroster hat (.counted _) rfl rfl).carry rfl rfl rfl rfl id id
  | shut hat => exact idle hret (h.started hat) (not_serving_of_closed rfl rfl)
  | shutAgain hat => exact h.setStage hroster hat (.abandoning _ _) rfl rfl
  | yield hat =>
    have hstarted := h.started hat
    obtain ⟨hclosing, hqueue⟩ := hsealed.failed (hsealed.failing _ (Roster.mem_workers hat) rfl)
    refine idle hret ?_ (not_serving_of_closed hclosing hqueue)
    show (if p.phase = .running then .shuttingDown else p.phase) ≠ .created
    split
    · nofun
    · exact hstarted
  | abandon hat =>
    obtain ⟨hclosing, hqueue⟩ := hsealed.failed (hsealed.failing _ (Roster.mem_workers hat) rfl)
    exact idle hret (h.started hat) (not_serving_of_closed hclosing hqueue)
  | leave hat => exact (h.exit hroster hat).carry rfl rfl rfl rfl id id
  | leaveLast hat => exact idle hret nofun fun hs => nomatch hs.1

end Staffed

/-! ## The account of every run -/

theorem Moves.config {p q : Pool α} {e : Event α} (hm : Moves p e q) : q.config = p.config := by
  cases hm with
  | look _ hresize => cases hresize <;> rfl
  | _ => rfl

/-- A pool starts to run in one way: by a `start` that launched a worker. -/
theorem Moves.opens {p q : Pool α} {e : Event α} (hm : Moves p e q) (hq : q.phase = .running) :
    p.phase = .running ∨
      p.phase = .created ∧ ∃ launches monitor now, e = .start launches monitor now ∧
        recruits (α := α) launches p.nextWorker p.config.minWorkers.toNat ≠ [] ∧
        q = (p.opened launches monitor now).sketch (p.window.estimate now) 0.0 0 now := by
  cases hm with
  | start hphase hsome => exact .inr ⟨hphase, _, _, _, rfl, hsome, rfl⟩
  | look hphase => exact .inl hphase
  | markUnstarted | conclude | leaveLast => cases hq
  | markRunning => dsimp only at hq; split at hq <;> cases hq
  | yield =>
    have hq : (if p.phase = .running then .shuttingDown else p.phase) = .running := hq
    split at hq
    · cases hq
    · exact .inl hq
  | _ => exact .inl hq

/-- How many of the attempts of a start succeed. `start` makes `minWorkers` of them. -/
def launched (launches : Nat → Bool) (p : Pool α) : Nat :=
  (List.range' p.nextWorker p.config.minWorkers.toNat).countP launches

theorem launched_eq_zero {launches : Nat → Bool} {p : Pool α} :
    p.launched launches = 0 ↔
      recruits (α := α) launches p.nextWorker p.config.minWorkers.toNat = [] := by
  rw [← List.length_eq_zero_iff, length_recruits, launched]

/-- `start` asks for as many threads as the settings have as the least number of workers. -/
theorem launched_le (launches : Nat → Bool) (p : Pool α) :
    p.launched launches ≤ p.config.minWorkers.toNat := by
  have hle := List.countP_le_length (p := launches)
    (l := List.range' p.nextWorker p.config.minWorkers.toNat)
  rwa [List.length_range'] at hle

/-- A start of the run found the pool `created` and launched `count` workers. -/
def OpenedWith (start : Pool α) (es : List (Event α)) (count : Nat) : Prop :=
  ∃ i q launches monitor now, During start es i q (.start launches monitor now) ∧
    q.phase = .created ∧ count = q.launched launches

/-- The settings that a pool was created with stay for the whole run. -/
theorem config_of_steps {start p : Pool α} {es : List (Event α)} (h : start.steps es = some p) :
    p.config = start.config := by
  induction h using steps_induction with
  | nil => rfl
  | snoc es p e q _ hstep ih => exact (moves_of_step hstep).config.trans ih

/-- Every run keeps a pool `Staffed`, from the number of workers that the start launched on. -/
theorem staffed_of_steps {config : Config} {now : Int} {es : List (Event α)} {p : Pool α}
    (hmin : 1 ≤ config.minWorkers) (hmax : config.minWorkers ≤ config.maxWorkers)
    (h : (create config now).steps es = some p) :
    ∃ count : Nat, 1 ≤ count ∧ count ≤ config.minWorkers ∧ Staffed count p ∧
      (p.phase = .running → OpenedWith (create config now) es count) := by
  induction h using steps_induction with
  | nil =>
    exact ⟨1, Nat.le_refl 1, hmin, ⟨fun _ => ⟨rfl, rfl⟩, Int.le_refl 0, fun hs => nomatch hs.1⟩,
      nofun⟩
  | snoc es p e q hrun hstep ih =>
    obtain ⟨count, hpos, hle, hstaffed, hopened⟩ := ih
    have hm := moves_of_step hstep
    have hconfig : p.config = config := config_of_steps hrun
    by_cases hcreated : p.phase = .created ∧ q.phase = .running
    · -- the step opens the pool: from now on the workers that it launched count
      obtain hphase | ⟨_, launches, monitor, t, rfl, hsome, rfl⟩ := hm.opens hcreated.2
      · cases hcreated.1.symm.trans hphase
      · have hfloor :
            (recruits (α := α) launches p.nextWorker p.config.minWorkers.toNat).length =
              p.launched launches :=
          length_recruits launches _ _
        have hstart := hstaffed.start hcreated.1 (hconfig ▸ hmax) launches monitor t hsome
          (p.window.estimate t)
        have hlaunched : p.launched launches ≠ 0 := fun hzero => hsome (launched_eq_zero.mp hzero)
        have hle := p.launched_le launches
        rw [hconfig] at hle
        rw [hfloor] at hstart
        refine ⟨p.launched launches, by omega, by omega, hstart, fun _ => ?_⟩
        exact ⟨es.length, p, launches, monitor, t, .last hrun _, hcreated.1, rfl⟩
    · have hopens : q.phase = .running → p.phase = .running := fun hq =>
        (hm.opens hq).resolve_right fun hopen => hcreated ⟨hopen.1, hq⟩
      refine ⟨count, hpos, hle, ?_, fun hq => ?_⟩
      · exact hstaffed.move (roster_of_steps hrun) (sealed_of_steps hrun) (by omega)
          (hconfig ▸ hle) hm hopens
      · obtain ⟨i, q', launches, monitor, t, hduring, rest⟩ := hopened (hopens hq)
        exact ⟨i, q', launches, monitor, t, hduring.append [e], rest⟩

/-- **The workers of a running pool.** Whatever callers, workers and the monitor did, and whichever
attempts to launch a worker failed: the workers in their loop are those that the pool wants and
those that are asked to leave; the number that it wants lies between the number that its start
launched and the limit, and all in their loop are within the limit; numbers are distinct, and `live`
counts those that have not exited. So while a job waits, there is a worker in its loop that nobody
asks to leave. -/
theorem workers_balance {config : Config} {now : Int} {es : List (Event α)} {p : Pool α}
    (hmin : 1 ≤ config.minWorkers) (hmax : config.minWorkers ≤ config.maxWorkers)
    (hrun : (create config now).steps es = some p) (hphase : p.phase = .running)
    (hopen : p.closing = false) :
    p.inLoop = p.active + p.retiring ∧ 0 ≤ p.retiring ∧
      (∃ i q launches monitor t, During (create config now) es i q (.start launches monitor t) ∧
        q.phase = .created ∧ 1 ≤ q.launched launches ∧ q.launched launches ≤ config.minWorkers ∧
        q.launched launches ≤ p.active ∧
        ((∀ n ∈ List.range' q.nextWorker config.minWorkers.toNat, launches n = true) →
          config.minWorkers ≤ p.active)) ∧
      p.active ≤ config.maxWorkers ∧ p.inLoop ≤ config.maxWorkers ∧
      (p.workers.map Worker.id).Nodup ∧ p.live = (p.workers.countP fun w => !w.stage.isGone) ∧
      (p.queue ≠ [] → p.retiring < p.inLoop) := by
  obtain ⟨count, hpos, hle, hstaffed, hopened⟩ := staffed_of_steps hmin hmax hrun
  obtain ⟨hin, hleast, hmost⟩ := hstaffed.balanced ⟨hphase, .inl hopen⟩
  obtain ⟨i, q, launches, monitor, t, hduring, hcreated, rfl⟩ := hopened hphase
  have hret := hstaffed.retiring
  have hroster := roster_of_steps hrun
  rw [config_of_steps hrun] at hmost
  have hqconfig : q.config = config := config_of_steps hduring.1
  have hall : (∀ n ∈ List.range' q.nextWorker config.minWorkers.toNat, launches n = true) →
      config.minWorkers ≤ p.active := by
    intro hl
    -- if no launch fails, the workers launched are as many as the settings ask for
    have hcount : q.launched launches = config.minWorkers.toNat := by
      rw [launched, hqconfig, List.countP_eq_length.mpr hl, List.length_range']
    omega
  refine ⟨hin, hret, ⟨i, q, launches, monitor, t, hduring, hcreated, hpos, hle, hleast, hall⟩, ?_,
    hmost, hroster.distinct, hroster.live, fun _ => ?_⟩
  · have hmost : (p.inLoop : Int) ≤ config.maxWorkers := hmost
    omega
  · omega

/-- One of two launches fails, the monitor looks, and one of two jobs is taken. -/
def failedLaunch : List (Event Nat) :=
  [.start (· != 0) true 0, .read, .read, .read, .enqueue 0 (.ok 7), .survey 5,
    .look (fun _ => true), .enqueue 1 (.ok 8), .work 1 .claim]

theorem workers_balance_failedLaunch :
    ∃ p : Pool Nat, (create { minWorkers := 2, maxWorkers := 3 } 0).steps failedLaunch = some p ∧
      p.phase = .running ∧ p.closing = false ∧ p.active = 1 ∧ p.queue ≠ [] ∧
        p.inLoop = p.active + p.retiring ∧
      p.retiring < p.inLoop := by
  have balance {p : Pool Nat}
      (hrun : (create { minWorkers := 2, maxWorkers := 3 } 0).steps failedLaunch = some p)
      (hphase : p.phase = .running) (hopen : p.closing = false) (hqueue : p.queue ≠ []) :
      p.inLoop = p.active + p.retiring ∧ p.retiring < p.inLoop := by
    obtain ⟨hin, _, _, _, _, _, _, hstays⟩ :=
      workers_balance (by decide) (by decide) hrun hphase hopen
    exact ⟨hin, hstays hqueue⟩
  exact ⟨_, rfl, rfl, rfl, rfl, nofun, balance rfl rfl rfl nofun⟩

end Headroom.Pool
