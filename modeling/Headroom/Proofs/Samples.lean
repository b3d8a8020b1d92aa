import Headroom.Proofs.Discipline
import Headroom.Proofs.Snapshots

/-!
# From worker to window

A worker puts the sample of a finished job into the mailbox, and the monitor moves what it finds
there to the window. Nothing is lost on the way that is not counted as lost, and nothing arrives
twice.

* **`Mailbox.conserves`**: for any order of pushes and drains, what was pending and what was
  admitted since is what was drained and what is pending, in this order. One use is
  `Mailbox.conserves_use`.
* **`Window.Holds`**: the window has the last samples that entered it, each in the slot of its
  number.
* **`mail`**: what the events of a run do to the mailbox. `delivered_of_steps` has that mailbox and
  window of a pool are those after its mail, and `length_pushed_mail` that each finished job has put
  one sample in.
* **`samples_arrive_once`**: both together, with the counts.
-/

namespace Headroom

namespace Mailbox

/-! ## The mailbox alone -/

/-- What can be done to a mailbox: a sample is pushed, or all that is pending is drained. -/
inductive Use
  | push (s : Sample)
  | drain

def use (m : Mailbox) : Use → Mailbox
  | .push s => m.push s
  | .drain => m.drain.2

/-- The mailbox after several uses, in the order in which they take their turns. -/
def after (m : Mailbox) (us : List Use) : Mailbox := us.foldl use m

/-- A sample is refused if pushing it leaves the pending ones as they were. -/
def refuses (m : Mailbox) (s : Sample) : Bool := (m.push s).pending == m.pending

def takenBy (m : Mailbox) : Use → List Sample
  | .push _ => []
  | .drain => m.drain.1

/-- The samples that a use puts in, unless the mailbox refuses them. -/
def admittedBy (m : Mailbox) : Use → List Sample
  | .push s => if m.refuses s then [] else [s]
  | .drain => []

def refusedBy (m : Mailbox) : Use → List Sample
  | .push s => if m.refuses s then [s] else []
  | .drain => []

/-- What `f` sees at the uses of a mailbox, in order. What was drained, admitted and refused are
three cases of it, so that one lemma about a further use, `seen_snoc`, serves for all of them. -/
def seen (f : Mailbox → Use → List Sample) (m : Mailbox) : List Use → List Sample
  | [] => []
  | u :: us => f m u ++ (m.use u).seen f us

/-- The samples that were drained, in order. -/
def drained (m : Mailbox) (us : List Use) : List Sample := m.seen takenBy us

/-- The samples of the pushes that were not refused, in order. -/
def admitted (m : Mailbox) (us : List Use) : List Sample := m.seen admittedBy us

def refused (m : Mailbox) (us : List Use) : List Sample := m.seen refusedBy us

def Use.samples : Use → List Sample
  | .push s => [s]
  | .drain => []

/-- The samples of all pushes, refused or not. -/
def pushed (us : List Use) : List Sample := us.flatMap Use.samples

theorem after_snoc (m : Mailbox) (us : List Use) (u : Use) :
    m.after (us ++ [u]) = (m.after us).use u := by
  unfold after
  rw [List.foldl_append]
  rfl

theorem seen_snoc (f : Mailbox → Use → List Sample) (m : Mailbox) (us : List Use) (u : Use) :
    m.seen f (us ++ [u]) = m.seen f us ++ f (m.after us) u := by
  induction us generalizing m with
  | nil => exact List.append_nil _
  | cons v us ih =>
    show f m v ++ (m.use v).seen f (us ++ [u]) = f m v ++ (m.use v).seen f us ++
      f ((m.use v).after us) u
    rw [ih, List.append_assoc]

theorem push_of_full {m : Mailbox} (hfull : m.full = true) (s : Sample) :
    m.push s = { m with dropped := m.dropped + 1 } := by
  rw [push, if_pos hfull]

theorem push_of_room {m : Mailbox} (hroom : ¬m.full = true) (s : Sample) :
    m.push s = { m with pending := m.pending ++ [s] } := by
  rw [push, if_neg hroom]

theorem refuses_eq_full (m : Mailbox) (s : Sample) : m.refuses s = m.full := by
  unfold refuses
  cases hfull : m.full with
  | true =>
    rw [push_of_full hfull]
    exact beq_self_eq_true m.pending
  | false =>
    have hlonger : m.pending ++ [s] ≠ m.pending := by simp
    rw [push_of_room (by simp [hfull])]
    exact beq_eq_false_iff_ne.mpr hlonger

/-- One use neither loses nor repeats a sample: what is pending and what it puts in are what it
takes out and what is pending then. -/
theorem conserves_use (m : Mailbox) (u : Use) :
    m.pending ++ m.admittedBy u = m.takenBy u ++ (m.use u).pending := by
  cases u with
  | drain => rfl
  | push s =>
    show m.pending ++ (if m.refuses s then [] else [s]) = (m.push s).pending
    rw [refuses_eq_full]
    split
    · next hfull => rw [push_of_full hfull, List.append_nil]
    · next hroom => rw [push_of_room hroom]

theorem dropped_use (m : Mailbox) (u : Use) :
    (m.use u).dropped = m.dropped + (m.refusedBy u).length := by
  cases u with
  | drain => rfl
  | push s =>
    show (m.push s).dropped = m.dropped + (if m.refuses s then [s] else []).length
    rw [refuses_eq_full]
    split
    · next hfull => rw [push_of_full hfull]; rfl
    · next hroom => rw [push_of_room hroom]; rfl

theorem capacity_use (m : Mailbox) (u : Use) : (m.use u).capacity = m.capacity := by
  cases u with
  | drain => rfl
  | push s =>
    show (m.push s).capacity = m.capacity
    unfold push
    split <;> rfl

theorem length_use_le {m : Mailbox} (h : m.pending.length ≤ m.capacity) (u : Use) :
    (m.use u).pending.length ≤ m.capacity := by
  cases u with
  | drain => exact Nat.zero_le _
  | push s =>
    show (m.push s).pending.length ≤ m.capacity
    by_cases hfull : m.full = true
    · rw [push_of_full hfull]
      exact h
    · rw [push_of_room hfull, List.length_append, List.length_singleton]
      have hroom : m.pending.length < m.capacity := by simpa [full] using hfull
      omega

/-- **Nothing is lost in the mailbox and nothing is taken out twice.** By induction on the uses from
the end, with `conserves_use` for the last one. -/
theorem conserves (m : Mailbox) (us : List Use) :
    m.pending ++ m.admitted us = m.drained us ++ (m.after us).pending := by
  induction us generalizing m with
  | nil => exact List.append_nil _
  | cons u us ih =>
    calc m.pending ++ (m.admittedBy u ++ (m.use u).admitted us)
        = m.takenBy u ++ ((m.use u).pending ++ (m.use u).admitted us) := by
          rw [← List.append_assoc, conserves_use, List.append_assoc]
      _ = m.takenBy u ++ (m.use u).drained us ++ ((m.use u).after us).pending := by
        rw [ih, List.append_assoc]

theorem dropped_after (m : Mailbox) (us : List Use) :
    (m.after us).dropped = m.dropped + (m.refused us).length := by
  induction us generalizing m with
  | nil => rfl
  | cons u us ih =>
    show ((m.use u).after us).dropped = m.dropped + (m.refusedBy u ++ (m.use u).refused us).length
    rw [ih, dropped_use, List.length_append, Nat.add_assoc]

theorem capacity_after (m : Mailbox) (us : List Use) : (m.after us).capacity = m.capacity := by
  induction us generalizing m with
  | nil => rfl
  | cons u us ih => exact (ih (m.use u)).trans (capacity_use m u)

theorem length_after_le {m : Mailbox} (h : m.pending.length ≤ m.capacity) (us : List Use) :
    (m.after us).pending.length ≤ m.capacity := by
  induction us generalizing m with
  | nil => exact h
  | cons u us ih =>
    rw [← capacity_use m u]
    exact ih (by rw [capacity_use]; exact length_use_le h u)

theorem length_pushed (m : Mailbox) (us : List Use) :
    (pushed us).length = (m.admitted us).length + (m.refused us).length := by
  induction us generalizing m with
  | nil => rfl
  | cons u us ih =>
    have hone : u.samples.length = (m.admittedBy u).length + (m.refusedBy u).length := by
      cases u with
      | drain => rfl
      | push s =>
        show 1 = (if m.refuses s then [] else [s]).length + (if m.refuses s then [s] else []).length
        cases m.refuses s <;> rfl
    show (u.samples ++ pushed us).length =
      (m.admittedBy u ++ (m.use u).admitted us).length +
        (m.refusedBy u ++ (m.use u).refused us).length
    simp only [List.length_append, ih (m.use u), hone]
    omega

end Mailbox

/-! ## The window alone -/

namespace Window

/-- Only samples with a positive duration enter the window. All others are counted as discarded. -/
def enters (s : Sample) : Bool := 0 < s.wall

theorem record_of_enters {s : Sample} (hs : enters s = true) (w : Window) :
    w.record s =
      { w with
        slots := if w.slots.size < w.config.capacity then w.slots.push s
          else w.slots.setIfInBounds w.next s
        next := (w.next + 1) % w.config.capacity
        unmeasured := if s.measured then w.unmeasured else w.unmeasured + 1 } := by
  have hs : ¬s.wall ≤ 0 := Int.not_le.mpr (of_decide_eq_true hs)
  rw [record, if_neg hs]

theorem record_of_not_enters {s : Sample} (hs : ¬enters s = true) (w : Window) :
    w.record s = { w with discarded := w.discarded + 1 } := by
  have hs : s.wall ≤ 0 := Int.not_lt.mp fun hpos => hs (decide_eq_true hpos)
  rw [record, if_pos hs]

theorem config_record (w : Window) (s : Sample) : (w.record s).config = w.config := by
  unfold record
  split <;> rfl

theorem config_records (w : Window) (samples : List Sample) :
    (samples.foldl record w).config = w.config := by
  induction samples generalizing w with
  | nil => rfl
  | cons s rest ih => exact (ih (w.record s)).trans (config_record w s)

theorem discarded_records (w : Window) (samples : List Sample) :
    (samples.foldl record w).discarded + (samples.filter enters).length =
      w.discarded + samples.length := by
  induction samples generalizing w with
  | nil => rfl
  | cons s rest ih =>
    have ih := ih (w.record s)
    rw [List.foldl_cons, List.length_cons]
    by_cases hs : enters s = true
    · rw [record_of_enters hs] at ih ⊢
      rw [List.filter_cons_of_pos hs, List.length_cons]
      simp only at ih
      omega
    · rw [record_of_not_enters hs] at ih ⊢
      rw [List.filter_cons_of_neg hs]
      simp only at ih
      omega

/-- The window holds the last of the samples that entered it, as many as it has room for. The sample
with number `j` is in the slot `j % capacity`, from which it drives out the one before. -/
structure Holds (w : Window) (entered : List Sample) : Prop where
  size : w.slots.size = min entered.length w.config.capacity
  next : w.next = entered.length % w.config.capacity
  slots : ∀ j, entered.length ≤ j + w.config.capacity → j < entered.length →
    w.slots[j % w.config.capacity]? = entered[j]?

theorem holds_empty (config : Config) : (empty config).Holds [] :=
  ⟨(Nat.zero_min _).symm, (Nat.zero_mod _).symm, fun j _ hj => absurd hj (Nat.not_lt_zero j)⟩

theorem mod_ne_of_near {c j n : Nat} (hjn : j < n) (hnear : n < j + c) : j % c ≠ n % c := by
  intro hsame
  have hround := Nat.sub_mod_eq_zero_of_mod_eq hsame.symm
  rw [Nat.mod_eq_of_lt (by omega)] at hround
  omega

section

variable {w : Window} {entered : List Sample} {s : Sample}

/-- In the first round every sample has a slot of its own, behind those that entered before it. -/
theorem Holds.fill (h : w.Holds entered) (hfree : entered.length < w.config.capacity)
    (unmeasured : Nat) :
    Holds { w with slots := w.slots.push s, next := (w.next + 1) % w.config.capacity, unmeasured }
      (entered ++ [s]) := by
  have hsize : w.slots.size = entered.length := by
    have := h.size
    omega
  constructor
  · show (w.slots.push s).size = min (entered ++ [s]).length w.config.capacity
    rw [Array.size_push, List.length_append, List.length_singleton, hsize]
    omega
  · show (w.next + 1) % w.config.capacity = (entered ++ [s]).length % w.config.capacity
    rw [h.next, Nat.mod_add_mod, List.length_append, List.length_singleton]
  · intro j (hj : (entered ++ [s]).length ≤ j + w.config.capacity) hj'
    show (w.slots.push s)[j % w.config.capacity]? = (entered ++ [s])[j]?
    rw [List.length_append, List.length_singleton] at hj hj'
    rw [Array.getElem?_push, hsize, Nat.mod_eq_of_lt (show j < w.config.capacity by omega)]
    by_cases hlast : j = entered.length
    · rw [if_pos hlast, hlast, List.getElem?_concat_length]
    · have hold := h.slots j (by omega) (by omega)
      rw [Nat.mod_eq_of_lt (show j < w.config.capacity by omega)] at hold
      rw [if_neg hlast, hold, List.getElem?_append_left (by omega)]

/-- Later a sample takes the slot of the one that entered a round before, which is the oldest. -/
theorem Holds.replace (h : w.Holds entered) (hroom : 0 < w.config.capacity)
    (hfull : w.config.capacity ≤ entered.length) (unmeasured : Nat) :
    Holds
      { w with
        slots := w.slots.setIfInBounds w.next s
        next := (w.next + 1) % w.config.capacity
        unmeasured }
      (entered ++ [s]) := by
  have hsize : w.slots.size = w.config.capacity := by
    have := h.size
    omega
  constructor
  · show (w.slots.setIfInBounds w.next s).size = min (entered ++ [s]).length w.config.capacity
    rw [Array.size_setIfInBounds, List.length_append, List.length_singleton, hsize]
    omega
  · show (w.next + 1) % w.config.capacity = (entered ++ [s]).length % w.config.capacity
    rw [h.next, Nat.mod_add_mod, List.length_append, List.length_singleton]
  · intro j (hj : (entered ++ [s]).length ≤ j + w.config.capacity) hj'
    show (w.slots.setIfInBounds w.next s)[j % w.config.capacity]? = (entered ++ [s])[j]?
    rw [List.length_append, List.length_singleton] at hj hj'
    rw [Array.getElem?_setIfInBounds, h.next]
    -- the new sample is in the slot of the oldest; the others are less than a round away
    by_cases hlast : j = entered.length
    · have hslot : entered.length % w.config.capacity < w.slots.size := by
        rw [hsize]
        exact Nat.mod_lt _ hroom
      rw [hlast, if_pos rfl, if_pos hslot, List.getElem?_concat_length]
    · have hother : j % w.config.capacity ≠ entered.length % w.config.capacity :=
        mod_ne_of_near (by omega) (by omega)
      rw [if_neg hother.symm, h.slots j (by omega) (by omega), List.getElem?_append_left (by omega)]

/-- A sample that enters is the last one that the window holds, in whichever round (`Holds`). -/
theorem Holds.record (h : w.Holds entered) (hroom : 0 < w.config.capacity) (hs : enters s = true) :
    (w.record s).Holds (entered ++ [s]) := by
  have hsize := h.size
  rw [record_of_enters hs]
  by_cases hfree : w.slots.size < w.config.capacity
  · simp only [if_pos hfree]
    exact h.fill (by omega) _
  · simp only [if_neg hfree]
    exact h.replace hroom (by omega) _

end

theorem Holds.records {w : Window} {entered : List Sample} (h : w.Holds entered)
    (hroom : 0 < w.config.capacity) (samples : List Sample) :
    (samples.foldl Window.record w).Holds (entered ++ samples.filter enters) := by
  induction samples generalizing w entered with
  | nil => rwa [List.filter_nil, List.append_nil]
  | cons s rest ih =>
    have hroom' : 0 < (w.record s).config.capacity := by rwa [config_record]
    by_cases hs : enters s = true
    · rw [List.filter_cons_of_pos hs, List.append_cons]
      exact ih (h.record hroom hs) hroom'
    · rw [List.filter_cons_of_neg hs]
      refine ih ?_ hroom'
      rw [record_of_not_enters hs]
      exact ⟨h.size, h.next, h.slots⟩

end Window

/-! ## Runs of a pool -/

namespace Pool

variable {α : Type}

/-- What an event does to the mailbox: a worker that finishes a job puts its sample in, and the
monitor takes out what is there, as does the end of a shutdown. -/
def mailedBy (p : Pool α) (e : Event α) (_ : Pool α) : List Mailbox.Use :=
  match e with
  | .work id (.finish (.ok cpu) now) =>
    match p.stage? id with
    | some (.ran _ watch) => [.push (watch.stop p.active now cpu)]
    | _ => []
  | .survey _ | .conclude _ => [.drain]
  | _ => []

/-- What the events of a run do to the mailbox, in order: what `mailedBy` sees along the run. -/
def mail (p : Pool α) (es : List (Event α)) : List Mailbox.Use := p.along mailedBy es

/-- The samples that were taken out of the mailbox in a run, in order. -/
def takenOut (p : Pool α) (es : List (Event α)) : List Sample := p.mailbox.drained (p.mail es)

/-- The mailbox and the window after some mail: the mailbox is the one that the uses leave behind,
and the window has recorded what was drained. -/
structure Delivered (m : Mailbox) (w : Window) (mail : List Mailbox.Use) (p : Pool α) : Prop where
  mailbox : p.mailbox = m.after mail
  window : p.window = (m.drained mail).foldl Window.record w

section

variable {m : Mailbox} {w : Window} {mail : List Mailbox.Use} {p q : Pool α}

theorem Delivered.use (h : Delivered m w mail p) {u : Mailbox.Use}
    (hmailbox : q.mailbox = p.mailbox.use u)
    (hwindow : q.window = (p.mailbox.takenBy u).foldl Window.record p.window) :
    Delivered m w (mail ++ [u]) q := by
  constructor
  · rw [hmailbox, h.mailbox, Mailbox.after_snoc]
  · show q.window = (m.seen Mailbox.takenBy (mail ++ [u])).foldl Window.record w
    rw [hwindow, h.window, h.mailbox, Mailbox.seen_snoc, List.foldl_append]
    rfl

theorem mailedBy_finish {id : Nat} {job : Job α} {watch : Stopwatch}
    (hat : p.stage? id = some (.ran job watch)) (cpu : Option Int) (now : Int) :
    mailedBy p (.work id (.finish (.ok cpu) now)) q = [.push (watch.stop p.active now cpu)] := by
  simp [mailedBy, hat]

/-- One step delivers its own mail: `mailedBy` says all that the step does to mailbox and window. -/
theorem Delivered.move {e : Event α} (h : Delivered m w mail p) (hm : Moves p e q) :
    Delivered m w (mail ++ mailedBy p e q) q := by
  have nothing (hmailed : mailedBy p e q = []) (hmailbox : q.mailbox = p.mailbox)
      (hwindow : q.window = p.window) : Delivered m w (mail ++ mailedBy p e q) q := by
    rw [hmailed, List.append_nil]
    exact ⟨hmailbox.trans h.mailbox, hwindow.trans h.window⟩
  cases hm with
  | concludeSame | conclude | survey => exact h.use rfl rfl
  | look _ hresize => cases hresize <;> exact nothing rfl rfl rfl
  | finish hat =>
    rw [mailedBy_finish hat]
    exact h.use rfl rfl
  | _ => exact nothing rfl rfl rfl

/-- The worker that finishes a job (`finishedBy`) puts one sample in, and nobody else does. -/
theorem length_pushed_mailedBy {e : Event α} (hm : Moves p e q) :
    (Mailbox.pushed (mailedBy p e q)).length = (p.finishedBy e).toList.length := by
  cases hm with
  | finish hat =>
    rw [mailedBy_finish hat, finishedBy, view_of_stage hat]
    rfl
  | look _ hresize => cases hresize <;> rfl
  | _ => rfl

end

section

variable {config : Config} {now : Int} {es : List (Event α)} {p : Pool α}

/-- After every run the mailbox and the window are those after its `mail` (`Delivered`). -/
theorem delivered_of_steps (h : (create config now).steps es = some p) :
    Delivered (create (α := α) config now).mailbox (.empty config.window)
      ((create config now).mail es) p := by
  induction h using steps_induction with
  | nil => exact ⟨rfl, rfl⟩
  | snoc es p e q hrun hstep ih =>
    rw [mail, along_snoc hrun hstep]
    exact ih.move (moves_of_step hstep)

/-- As many samples were pushed in a run as jobs were finished. -/
theorem length_pushed_mail (h : (create config now).steps es = some p) :
    (Mailbox.pushed ((create config now).mail es)).length =
      ((create config now).finished es).length := by
  induction h using steps_induction with
  | nil => rfl
  | snoc es p e q hrun hstep ih =>
    rw [mail, along_snoc hrun hstep, finished_snoc hrun hstep, List.length_append, ← ih,
      ← length_pushed_mailedBy (moves_of_step hstep), Mailbox.pushed, List.flatMap_append,
      List.length_append]
    rfl

/-- **Every sample arrives once, or is counted as dropped.** In any order of pushes and drains on a
mailbox, the samples `drained` so far and then those pending are the ones that were `admitted`, in
the order of their pushes; the mailbox keeps to its capacity, refuses a sample exactly if it is
full, and counts the refusals. In any run of a pool each job that is counted, or that a worker is
about to count, has put one sample in. Of these, some were dropped, some are pending, and the others
were drained; so these are the jobs that are counted whenever no worker stands between the two. Each
of the drained samples was recorded once, in order, and either it was discarded or it entered the
window, which holds the last that did (`Holds`) if it has room at all. -/
theorem samples_arrive_once (hrun : (create config now).steps es = some p) :
    (∀ capacity us, 1 ≤ capacity →
      ∃ m, Mailbox.ofCapacity capacity = .ok m ∧
        m.drained us ++ (m.after us).pending = m.admitted us ∧
        (m.after us).pending.length ≤ capacity ∧
        (∀ s, (m.after us).refuses s = true ↔ (m.after us).pending.length = capacity) ∧
        (m.after us).dropped = (m.refused us).length) ∧
      p.mailbox = (create (α := α) config now).mailbox.after ((create config now).mail es) ∧
      p.completed + p.standing Stage.uncounted =
        (Mailbox.pushed ((create config now).mail es)).length ∧
      p.completed + p.standing Stage.uncounted =
        p.mailbox.dropped + p.mailbox.pending.length + ((create config now).takenOut es).length ∧
      ((∀ w ∈ p.workers, w.stage.uncounted = false) →
        p.completed = p.mailbox.dropped + p.mailbox.pending.length +
          ((create config now).takenOut es).length) ∧
      ((create config now).takenOut es).length =
        p.window.discarded + (((create config now).takenOut es).filter Window.enters).length ∧
      p.window = ((create config now).takenOut es).foldl Window.record (.empty config.window) ∧
      (1 ≤ config.window.capacity →
        p.window.Holds (((create config now).takenOut es).filter Window.enters)) := by
  obtain ⟨hmailbox, hwindow⟩ := delivered_of_steps hrun
  have hcompleted : p.completed + p.standing Stage.uncounted =
      (Mailbox.pushed ((create config now).mail es)).length :=
    (finished_of_steps hrun).completed.trans (length_pushed_mail hrun).symm
  have hcount : p.completed + p.standing Stage.uncounted =
      p.mailbox.dropped + p.mailbox.pending.length + ((create config now).takenOut es).length := by
    -- what was pushed was admitted or dropped, and what was admitted was taken out or is pending
    have hpushed := Mailbox.length_pushed (create (α := α) config now).mailbox
      ((create config now).mail es)
    have hdropped := Mailbox.dropped_after (create (α := α) config now).mailbox
      ((create config now).mail es)
    have hadmitted := congrArg List.length
      (Mailbox.conserves (create (α := α) config now).mailbox ((create config now).mail es))
    rw [← hmailbox] at hdropped hadmitted
    rw [List.length_append, List.length_append] at hadmitted
    have hzero : (create (α := α) config now).mailbox.dropped = 0 := rfl
    have hnone : (create (α := α) config now).mailbox.pending.length = 0 := rfl
    unfold takenOut
    omega
  refine ⟨fun capacity us hcapacity => ?_, hmailbox, hcompleted, hcount, fun hapart =>
    ?_, ?_, hwindow, fun hroom => ?_⟩
  · have hmade : Mailbox.ofCapacity capacity = .ok (.empty capacity) :=
      if_neg (Nat.not_lt.mpr hcapacity)
    have hbound := Mailbox.length_after_le (m := .empty capacity) (Nat.zero_le _) us
    have hfull := Mailbox.capacity_after (.empty capacity) us
    refine ⟨_, hmade, (Mailbox.conserves _ us).symm, hbound, fun s => ?_, ?_⟩
    · rw [Mailbox.refuses_eq_full, Mailbox.full, decide_eq_true_iff, hfull]
      exact ⟨Nat.le_antisymm hbound, fun heq => Nat.le_of_eq heq.symm⟩
    · rw [Mailbox.dropped_after]
      exact Nat.zero_add _
  · have hnobody : p.standing Stage.uncounted = 0 :=
      List.countP_eq_zero.mpr fun w hw => by simp [hapart w hw]
    omega
  · have hdiscarded := Window.discarded_records (.empty config.window)
      ((create (α := α) config now).takenOut es)
    have hzero : (Window.empty config.window).discarded = 0 := rfl
    have hsame : (((create config now).takenOut es).foldl Window.record
        (.empty config.window)).discarded =
        p.window.discarded := congrArg Window.discarded hwindow.symm
    omega
  · rw [hwindow]
    exact (Window.holds_empty config.window).records hroom _

end

/-- One worker, and room for one sample. -/
def tight : Config := { minWorkers := 1, maxWorkers := 1, mailboxCapacity := 1 }

/-- A job from its submission to its end, on the first worker. -/
def errand (index : Nat) (began ended : Int) : List (Event Nat) :=
  [.enqueue index (.ok index), .work 0 .claim, .work 0 (.begin (.ok none) began), .work 0 .run,
    .work 0 (.finish (.ok none) ended), .work 0 .count]

/-- A look of the monitor, with the snapshot that comes of it. -/
def glance (now : Int) : List (Event Nat) :=
  [.survey now, .look (fun _ => true), .read, .read, .read]

/-- The monitor takes out the sample of the first job, then that of the second, which has no
duration and in whose way that of the third is dropped; that of the last is pending. -/
def fourErrands : List (Event Nat) :=
  [.start (fun _ => true) true 0, .read, .read, .read] ++ errand 0 0 5 ++ glance 5 ++
    errand 1 5 5 ++
    errand 2 5 7 ++ glance 7 ++ errand 3 7 8

theorem samples_arrive_once_fourErrands :
    1 ≤ tight.window.capacity ∧ ∃ p : Pool Nat, (create tight 0).steps fourErrands = some p ∧
      p.completed = 4 ∧ p.mailbox.dropped = 1 ∧ p.mailbox.pending.length = 1 ∧
      ((create tight 0).takenOut fourErrands).length = 2 ∧ p.window.discarded = 1 ∧
      p.window.size = 1 := by
  have hrun : ∃ p, (create tight 0).steps fourErrands = some p ∧ p.completed = 4 ∧
      p.workers = [⟨0, .free⟩] :=
    ⟨_, rfl, rfl, rfl⟩
  obtain ⟨p, hrun, hfour, hworkers⟩ := hrun
  have hapart : ∀ w ∈ p.workers, w.stage.uncounted = false := by simp [hworkers, Stage.uncounted]
  obtain ⟨_, hmailbox, _, _, hcount, hdrained, hwindow, hholds⟩ := samples_arrive_once hrun
  have hcount := hcount hapart
  have htaken : ((create tight 0).takenOut fourErrands).length = 2 := rfl
  have hentered : (((create tight 0).takenOut fourErrands).filter Window.enters).length = 1 := rfl
  have hdropped : p.mailbox.dropped = 1 := congrArg Mailbox.dropped hmailbox
  have hconfig : p.window.config = tight.window := by rw [hwindow, Window.config_records]; rfl
  have hsize := (hholds (by decide)).size
  rw [hentered, hconfig] at hsize
  exact ⟨by decide, p, hrun, hfour, hdropped, by omega, htaken, by omega, hsize⟩

end Pool

end Headroom
