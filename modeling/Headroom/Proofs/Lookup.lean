import Headroom.Proofs.Strings
import Headroom.Settings.Document
import Mathlib.Data.List.Induction
import Mathlib.Data.List.Nodup

/-!
# What a document answers

A document is read line by line into nested association lists. This module says what it answers in
terms of the text alone.

* **`meaningful`**: the lines of a text that say something. `load_eq` has that a document is read
  from these alone.
* **`Denotes`**: what may stand on the right of an equals sign, and the value that it denotes.
* **`Assigns`**: line `i` gives a key of a section its value. The section is that of the last header
  before the line.
* **`get?_readAll`**: after some lines, the value of a key is the one from the last line that
  assigns it. The induction is over the lines, with one more line at the end; `get?_openSection` and
  `get?_assign` say what a line can change.
* **`lookup_last_assignment`**: this for every text, whatever was loaded before it.
-/

namespace Headroom.Document

/-! ## Lines and what they say -/

/-- Neither empty nor a comment. The line has been trimmed before. -/
def speaks (line : Bytes) : Bool := !line.isEmpty && line.head? != some 35

/-- The lines of a text that say something, without the white space around them. -/
def meaningful (source : Bytes) : List Bytes :=
  ((Bytes.split 10 source).map Bytes.trim).filter speaks

/-- A line in brackets is a header, whatever stands between them. -/
def isHeader (line : Bytes) : Bool := line.head? == some 91 && line.getLast? == some 93

/-- The name of a section is what stands in the brackets, trimmed. -/
def headerName (line : Bytes) : Bytes := Bytes.trim (line.drop 1).dropLast

/-- The section that is open after some lines: the one of the last header, or the one without a
name. -/
def sectionAfter (lines : List Bytes) : Bytes :=
  ((lines.filter isHeader).getLast?.map headerName).getD []

/-- The value that is written on the right of an equals sign. It is given by the shape of the text
and not by how it is read: a quote may be left open, and one quote alone is no quoted value. -/
inductive Denotes : Bytes → Bytes → Prop
  | quoted {value rest : Bytes} (hquote : 34 ∉ value) : Denotes (34 :: (value ++ 34 :: rest)) value
  | leftOpen {value : Bytes} (hsome : value ≠ []) (hquote : 34 ∉ value) :
      Denotes (34 :: value) value
  | commented {shown rest : Bytes} (hhash : 35 ∉ shown)
      (hplain : (shown ++ 35 :: rest).head? ≠ some 34) :
      Denotes (shown ++ 35 :: rest) (Bytes.trim shown)
  | plain {shown : Bytes} (hhash : 35 ∉ shown) (hplain : shown.head? ≠ some 34 ∨ shown = [34]) :
      Denotes shown (Bytes.trim shown)

/-- Line `i` gives the key of a section a value: it is no header, the section is open there, and the
key stands before its first equals sign. -/
def Assigns (lines : List Bytes) (i : Nat) (name key value : Bytes) : Prop :=
  ∃ line before after, lines[i]? = some line ∧ isHeader line = false ∧
    sectionAfter (lines.take i) = name ∧
    line = before ++ 61 :: after ∧ 61 ∉ before ∧ Bytes.trim before = key ∧
      Denotes (Bytes.trim after) value

/-- Line `i` assigns the key, and no later line assigns it again. -/
def AssignsLast (lines : List Bytes) (i : Nat) (name key value : Bytes) : Prop :=
  Assigns lines i name key value ∧ ∀ j other, i < j → ¬Assigns lines j name key other

/-! ### Values -/

theorem valueOf_of_quote {rhs body : Bytes} (htrim : Bytes.trim rhs = 34 :: body)
    (hsome : body ≠ []) :
    valueOf rhs = Bytes.before 34 body := by
  unfold valueOf
  rw [htrim]
  cases body with
  | nil => exact absurd rfl hsome
  | cons c rest => rfl

theorem valueOf_of_plain {rhs : Bytes}
    (hplain : (Bytes.trim rhs).head? ≠ some 34 ∨ Bytes.trim rhs = [34]) :
    valueOf rhs = Bytes.trim (Bytes.before 35 (Bytes.trim rhs)) := by
  unfold valueOf
  split
  · next c rest htrim => simp [htrim] at hplain
  · rfl

theorem denotes_valueOf (rhs : Bytes) : Denotes (Bytes.trim rhs) (valueOf rhs) := by
  by_cases hplain : (Bytes.trim rhs).head? ≠ some 34 ∨ Bytes.trim rhs = [34]
  · rw [valueOf_of_plain hplain]
    by_cases hhash : 35 ∈ Bytes.trim rhs
    · obtain ⟨shown, rest, hsplit, hnot⟩ := List.eq_append_cons_of_mem hhash
      have hlone : Bytes.trim rhs ≠ [34] := fun hlone => absurd (hlone ▸ hhash) (by decide)
      have hhead := hplain.resolve_right hlone
      rw [hsplit] at hhead ⊢
      rw [Bytes.before_append hnot]
      exact .commented hnot hhead
    · rw [Bytes.before_of_not_mem hhash]
      exact .plain hhash hplain
  · rw [not_or, not_not] at hplain
    obtain ⟨body, htrim⟩ := List.head?_eq_some_iff.mp hplain.1
    have hsome : body ≠ [] := fun hnil => hplain.2 (hnil ▸ htrim)
    rw [valueOf_of_quote htrim hsome, htrim]
    by_cases hquote : 34 ∈ body
    · obtain ⟨value, rest, hsplit, hnot⟩ := List.eq_append_cons_of_mem hquote
      rw [hsplit, Bytes.before_append hnot]
      exact .quoted hnot
    · rw [Bytes.before_of_not_mem hquote]
      exact .leftOpen hsome hquote

/-- A text `Denotes` one value only, the one that is read. -/
theorem valueOf_of_denotes {rhs value : Bytes} (h : Denotes (Bytes.trim rhs) value) :
    valueOf rhs = value := by
  generalize htrim : Bytes.trim rhs = shown at h
  cases h with
  | quoted hquote => rw [valueOf_of_quote htrim (by simp), Bytes.before_append hquote]
  | leftOpen hsome hquote => rw [valueOf_of_quote htrim hsome, Bytes.before_of_not_mem hquote]
  | commented hhash hplain =>
    rw [valueOf_of_plain (.inl (htrim ▸ hplain)), htrim, Bytes.before_append hhash]
  | plain hhash hplain =>
    rw [valueOf_of_plain (htrim ▸ hplain), htrim, Bytes.before_of_not_mem hhash]

/-! ### Lines -/

/-- What a line that says something says: a header, an assignment, or neither. -/
def said (line : Bytes) : Line :=
  if isHeader line then .header (headerName line)
  else match Bytes.cut? 61 line with
    | none => .idle
    | some (key, rhs) => .assignment (Bytes.trim key) (valueOf rhs)

theorem ofBytes_eq (raw : Bytes) :
    Line.ofBytes raw = if speaks (Bytes.trim raw) then said (Bytes.trim raw) else .idle := by
  have hspeaks : speaks (Bytes.trim raw) =
      !((Bytes.trim raw).isEmpty || (Bytes.trim raw).head? == some 35) := (Bool.not_or ..).symm
  show (if (Bytes.trim raw).isEmpty || (Bytes.trim raw).head? == some 35 then .idle
    else said (Bytes.trim raw)) = _
  rw [hspeaks]
  cases (Bytes.trim raw).isEmpty || (Bytes.trim raw).head? == some 35 <;> rfl

/-- Headers are recognised before anything else, so an equals sign in a header assigns nothing. -/
theorem said_eq_header {line name : Bytes} :
    said line = .header name ↔ isHeader line = true ∧ headerName line = name := by
  unfold said
  split
  · next hheader => simp [hheader]
  · next hheader => split <;> simp [hheader]

theorem said_brackets (name : Bytes) : said (91 :: (name ++ [93])) = .header (Bytes.trim name) := by
  have hlast : (91 :: (name ++ [93])).getLast? = some 93 := List.getLast?_concat (l := 91 :: name)
  refine said_eq_header.mpr ⟨?_, ?_⟩
  · rw [isHeader, hlast]
    rfl
  · show Bytes.trim (name ++ [93]).dropLast = Bytes.trim name
    rw [List.dropLast_concat]

/-- A line that is no header assigns at its first equals sign: the key is what stands before it, and
the value is what the rest `Denotes`. -/
theorem said_eq_assignment {line key value : Bytes} :
    said line = .assignment key value ↔
      isHeader line = false ∧ ∃ before after, line = before ++ 61 :: after ∧ 61 ∉ before ∧
        Bytes.trim before = key ∧ Denotes (Bytes.trim after) value := by
  unfold said
  split
  · next hheader => simp [hheader]
  · next hheader =>
    rw [Bool.not_eq_true] at hheader
    constructor
    · intro hsaid
      split at hsaid
      · cases hsaid
      · next before after hcut =>
        cases hsaid
        obtain ⟨hline, hfirst⟩ := Bytes.cut?_eq_some_iff.mp hcut
        exact ⟨hheader, before, after, hline, hfirst, rfl, denotes_valueOf after⟩
    · rintro ⟨_, before, after, hline, hfirst, rfl, hvalue⟩
      rw [Bytes.cut?_eq_some_iff.mpr ⟨hline, hfirst⟩, ← valueOf_of_denotes hvalue]

/-! ## Sections and keys

Sections by name and entries by key are changed in the same way: the one that is there is changed in
its place, and a new one is added at the end. -/

section

variable {α : Type} {label : α → Bytes} {name : Bytes} {made : α} {change : α → α}

/-- Change the first element with a label, or append a new one. Both sections of a document and
entries of a section are kept in this way, so the lemmas below serve for both. -/
def alter (label : α → Bytes) (name : Bytes) (made : α) (change : α → α) : List α → List α
  | [] => [made]
  | a :: rest => if label a == name then change a :: rest
      else a :: alter label name made change rest

/-- After `alter` the label has the changed element, or the changed new one, and all other labels
have what they had. -/
theorem find?_alter (hmade : label made = name) (hchange : ∀ a, label (change a) = label a)
    (n : Bytes) (xs : List α) :
    (alter label name made change xs).find? (label · == n) =
      if n = name then some (((xs.find? (label · == n)).map change).getD made)
        else xs.find? (label · == n) := by
  induction xs with
  | nil =>
    by_cases hn : n = name
    · simp [alter, hmade, hn]
    · simp [alter, hmade, hn, Ne.symm hn]
  | cons a rest ih =>
    unfold alter
    by_cases ha : label a = name
    · by_cases hn : n = name
      · simp [ha, hn, hchange]
      · simp [ha, hn, Ne.symm hn, hchange]
    · simp only [beq_eq_false_iff_ne.mpr ha, Bool.false_eq_true, if_false, List.find?_cons, ih]
      by_cases hn : label a = n
      · subst hn
        simp [ha]
      · simp [beq_eq_false_iff_ne.mpr hn]

theorem nodup_alter (hmade : label made = name) (hchange : ∀ a, label (change a) = label a)
    {xs : List α} (h : (xs.map label).Nodup) :
    ((alter label name made change xs).map label).Nodup := by
  have hlabels : (alter label name made change xs).map label =
      if name ∈ xs.map label then xs.map label else xs.map label ++ [name] := by
    clear h
    induction xs with
    | nil => simp [alter, hmade]
    | cons a rest ih =>
      unfold alter
      by_cases ha : label a = name
      · simp [ha, hchange]
      · simp only [beq_eq_false_iff_ne.mpr ha, Bool.false_eq_true, if_false, List.map_cons, ih,
          List.mem_cons, Ne.symm ha, false_or]
        split <;> rfl
  rw [hlabels]
  split
  · exact h
  · next hnew =>
    refine List.nodup_append.mpr ⟨h, List.nodup_singleton name, fun a ha b hb heq => hnew ?_⟩
    rw [List.mem_singleton] at hb
    rwa [← hb, ← heq]

theorem mem_alter {xs : List α} {a : α} (h : a ∈ alter label name made change xs) :
    a ∈ xs ∨ a = made ∨ ∃ b ∈ xs, a = change b := by
  induction xs with
  | nil => exact .inr (.inl (List.mem_singleton.mp h))
  | cons b rest ih =>
    unfold alter at h
    split at h
    · rcases List.mem_cons.mp h with rfl | hrest
      · exact .inr (.inr ⟨b, List.mem_cons_self, rfl⟩)
      · exact .inl (List.mem_cons_of_mem b hrest)
    · rcases List.mem_cons.mp h with rfl | hrest
      · exact .inl List.mem_cons_self
      · rcases ih hrest with hold | hnew | ⟨c, hc, heq⟩
        · exact .inl (List.mem_cons_of_mem b hold)
        · exact .inr (.inl hnew)
        · exact .inr (.inr ⟨c, List.mem_cons_of_mem b hc, heq⟩)

end

theorem put_eq (key value : Bytes) (entries : List (Bytes × Bytes)) :
    put key value entries = alter Prod.fst key (key, value) (fun entry =>
      (entry.1, value)) entries := by
  induction entries with
  | nil => rfl
  | cons entry rest ih => rw [put, alter, ih]

theorem update_eq (name : Bytes) (f : List (Bytes × Bytes) → List (Bytes × Bytes))
    (sections : List Section) :
    update name f sections =
      alter Section.name name ⟨name, f []⟩ (fun s => { s with entries := f s.entries })
        sections := by
  induction sections with
  | nil => rfl
  | cons s rest ih => rw [update, alter, ih]

/-! ### What a line changes -/

/-- The entries of a section; a section that is not there has none. -/
def entriesOf (name : Bytes) (sections : List Section) : List (Bytes × Bytes) :=
  ((sections.find? (·.name == name)).map Section.entries).getD []

theorem get?_eq (d : Document) (name key : Bytes) :
    d.get? name key = ((entriesOf name d.sections).find? (·.1 == key)).map Prod.snd := by
  unfold get? entriesOf
  cases d.sections.find? (·.name == name) with
  | none => rfl
  | some s =>
    show (s.entries.find? (·.1 == key)).bind (fun entry => some entry.2) =
      (s.entries.find? (·.1 == key)).map Prod.snd
    cases s.entries.find? (·.1 == key) <;> rfl

theorem entriesOf_update (target name : Bytes) (f : List (Bytes × Bytes) → List (Bytes × Bytes))
    (sections : List Section) :
    entriesOf name (update target f sections) =
      if name = target then f (entriesOf name sections) else entriesOf name sections := by
  unfold entriesOf
  rw [update_eq, find?_alter]
  · by_cases hname : name = target
    · rw [if_pos hname, if_pos hname]
      cases sections.find? (·.name == name) <;> rfl
    · rw [if_neg hname, if_neg hname]
  · rfl
  · intro s
    rfl

theorem find?_put (assigned value key : Bytes) (entries : List (Bytes × Bytes)) :
    ((put assigned value entries).find? (·.1 == key)).map Prod.snd =
      if key = assigned then some value else (entries.find? (·.1 == key)).map Prod.snd := by
  rw [put_eq, find?_alter]
  · by_cases hkey : key = assigned
    · rw [if_pos hkey, if_pos hkey]
      cases entries.find? (·.1 == key) <;> rfl
    · rw [if_neg hkey, if_neg hkey]
  · rfl
  · intro entry
    rfl

/-- A section that is opened holds what it held before, and so do all others. -/
theorem get?_openSection (d : Document) (opened name key : Bytes) :
    (d.openSection opened).get? name key = d.get? name key := by
  rw [get?_eq, get?_eq, openSection, entriesOf_update]
  split <;> rfl

/-- Assigning changes the answer for one key of one section, be it new or not. -/
theorem get?_assign (d : Document) (target assigned value name key : Bytes) :
    (d.assign target assigned value).get? name key =
      if name = target ∧ key = assigned then some value else d.get? name key := by
  rw [get?_eq, get?_eq, assign, entriesOf_update]
  by_cases hname : name = target
  · rw [if_pos hname, find?_put]
    by_cases hkey : key = assigned
    · rw [if_pos hkey, if_pos ⟨hname, hkey⟩]
    · rw [if_neg hkey, if_neg fun h => hkey h.2]
  · rw [if_neg hname, if_neg fun h => hname h.1]

/-- Section names are distinct, and so are the keys of each section. -/
structure Distinct (d : Document) : Prop where
  names : (d.sections.map Section.name).Nodup
  keys : ∀ s ∈ d.sections, (s.entries.map Prod.fst).Nodup

theorem Distinct.update {d : Document} (h : d.Distinct) (name : Bytes)
    {f : List (Bytes × Bytes) → List (Bytes × Bytes)}
    (hf : ∀ entries, (entries.map Prod.fst).Nodup → ((f entries).map Prod.fst).Nodup) :
    Distinct ⟨update name f d.sections⟩ := by
  constructor
  · rw [update_eq]
    exact nodup_alter (by rfl) (fun _ => by rfl) h.names
  · intro s hs
    rw [update_eq] at hs
    rcases mem_alter hs with hold | rfl | ⟨t, ht, rfl⟩
    · exact h.keys s hold
    · exact hf [] List.nodup_nil
    · exact hf t.entries (h.keys t ht)

theorem Distinct.readLine {state : Document × Bytes} (h : state.1.Distinct) (line : Line) :
    (readLine state line).1.Distinct := by
  cases line with
  | idle => exact h
  | header name => exact h.update name fun _ hentries => hentries
  | assignment key value =>
    refine h.update state.2 fun entries hentries => ?_
    rw [put_eq]
    exact nodup_alter (by rfl) (fun _ => by rfl) hentries

/-! ## Reading all lines -/

/-- The document and the open section after some lines that say something. It is the fold of
`readLine` that `load` performs, without the lines that say nothing. -/
def readAll (lines : List Bytes) : Document × Bytes :=
  lines.foldl (fun state line => readLine state (said line)) (empty, [])

theorem readAll_snoc (lines : List Bytes) (line : Bytes) :
    readAll (lines ++ [line]) = readLine (readAll lines) (said line) := by
  unfold readAll
  rw [List.foldl_append]
  rfl

/-- Lines that say nothing leave a document as it is, and what it held before is given up. -/
theorem load_eq (d : Document) (source : Bytes) :
    d.load source = (readAll (meaningful source)).1 := by
  have hskip (raws : List Bytes) (state : Document × Bytes) :
      (raws.map Line.ofBytes).foldl readLine state =
        ((raws.map Bytes.trim).filter speaks).foldl (fun state line => readLine state (said line))
          state := by
    induction raws generalizing state with
    | nil => rfl
    | cons raw rest ih =>
      rw [List.map_cons, List.map_cons, List.foldl_cons, ofBytes_eq, ih]
      by_cases hspeaks : speaks (Bytes.trim raw) = true
      · rw [List.filter_cons_of_pos hspeaks, if_pos hspeaks, List.foldl_cons]
      · rw [List.filter_cons_of_neg hspeaks, if_neg hspeaks]
        rfl
  show (((Bytes.split 10 source).map Line.ofBytes).foldl readLine (empty, [])).1 = _
  rw [hskip]
  rfl

theorem distinct_readAll (lines : List Bytes) : (readAll lines).1.Distinct := by
  induction lines using List.reverseRecOn with
  | nil => exact ⟨List.nodup_nil, nofun⟩
  | append_singleton lines line ih =>
    rw [readAll_snoc]
    exact ih.readLine (said line)

theorem sectionAfter_snoc (lines : List Bytes) (line : Bytes) :
    sectionAfter (lines ++ [line]) = if isHeader line then headerName line
      else sectionAfter lines := by
  unfold sectionAfter
  rw [List.filter_append]
  by_cases hheader : isHeader line = true
  · simp [hheader]
  · simp [hheader]

/-- The section that is open while reading (`readAll`) is the one that the lines before it say. -/
theorem readAll_section (lines : List Bytes) : (readAll lines).2 = sectionAfter lines := by
  induction lines using List.reverseRecOn with
  | nil => rfl
  | append_singleton lines line ih =>
    rw [readAll_snoc, sectionAfter_snoc]
    cases hsaid : said line with
    | header name =>
      obtain ⟨hheader, hname⟩ := said_eq_header.mp hsaid
      rw [if_pos hheader, hname]
      rfl
    | idle | assignment =>
      have hheader : ¬isHeader line = true := by
        intro hheader
        rw [said, if_pos hheader] at hsaid
        cases hsaid
      rw [if_neg hheader, ← ih]
      rfl

/-- One more line `Assigns` what it says to the section that is open. -/
theorem assigns_snoc {lines : List Bytes} {line : Bytes} {i : Nat} {name key value : Bytes} :
    Assigns (lines ++ [line]) i name key value ↔
      Assigns lines i name key value ∨
        i = lines.length ∧ sectionAfter lines = name ∧ said line = .assignment key value := by
  rw [said_eq_assignment]
  constructor
  · rintro ⟨l, before, after, hget, hheader, hname, hline, hfirst, hkey, hvalue⟩
    -- the line at `i` is one of the earlier ones, the last one, or none
    rcases Nat.lt_trichotomy i lines.length with hi | hi | hi
    · rw [List.getElem?_append_left hi] at hget
      rw [List.take_append_of_le_length (Nat.le_of_lt hi)] at hname
      exact .inl ⟨l, before, after, hget, hheader, hname, hline, hfirst, hkey, hvalue⟩
    · subst hi
      rw [List.getElem?_concat_length] at hget
      rw [List.take_left] at hname
      cases hget
      exact .inr ⟨rfl, hname, hheader, before, after, hline, hfirst, hkey, hvalue⟩
    · rw [List.getElem?_eq_none (by simp; omega)] at hget
      cases hget
  · rintro (⟨l, before, after, hget, hheader, hname, hrest⟩ | ⟨rfl, hname, hheader, before, after,
      hrest⟩)
    · have hi : i < lines.length := (List.getElem?_eq_some_iff.mp hget).1
      have hget' : (lines ++ [line])[i]? = lines[i]? := List.getElem?_append_left hi
      have htake : (lines ++ [line]).take i = lines.take i :=
        List.take_append_of_le_length (Nat.le_of_lt hi)
      exact ⟨l, before, after, hget'.trans hget, hheader, htake ▸ hname, hrest⟩
    · exact ⟨line, before, after, by simp, hheader, by rwa [List.take_left], hrest⟩

theorem Assigns.lt_length {lines : List Bytes} {i : Nat} {name key value : Bytes}
    (h : Assigns lines i name key value) : i < lines.length := by
  obtain ⟨line, before, after, hget, _⟩ := h
  exact (List.getElem?_eq_some_iff.mp hget).1

theorem exists_assignsLast {lines : List Bytes} {i : Nat} {name key value : Bytes}
    (h : Assigns lines i name key value) : ∃ j v, AssignsLast lines j name key v := by
  by_cases hlater : ∃ j v, i < j ∧ Assigns lines j name key v
  · obtain ⟨j, v, hij, hj⟩ := hlater
    have := hj.lt_length
    exact exists_assignsLast hj
  · exact ⟨i, value, h, fun j v hij hj => hlater ⟨j, v, hij, hj⟩⟩
termination_by lines.length - i

/-- A line that does not assign the key (`Assigns`) changes nothing about which line is the last to
do so. -/
theorem assignsLast_snoc_of_other {lines : List Bytes} {line : Bytes} {i : Nat}
    {name key value : Bytes}
    (hother : ∀ v, ¬(sectionAfter lines = name ∧ said line = .assignment key v)) :
    AssignsLast (lines ++ [line]) i name key value ↔ AssignsLast lines i name key value := by
  have hsame (j : Nat) (v : Bytes) :
      Assigns (lines ++ [line]) j name key v ↔ Assigns lines j name key v := by
    rw [assigns_snoc]
    exact or_iff_left fun h => hother v h.2
  unfold AssignsLast
  simp only [hsame]

/-- A line that assigns the key to the open section is the last to do so (`AssignsLast`), and the
only one that counts. -/
theorem assignsLast_snoc_of_same {lines : List Bytes} {line : Bytes} {i : Nat} {key v value : Bytes}
    (hsaid : said line = .assignment key v) :
    AssignsLast (lines ++ [line]) i (sectionAfter lines) key value ↔ i = lines.length ∧
      v = value := by
  have hlast : Assigns (lines ++ [line]) lines.length (sectionAfter lines) key v :=
    assigns_snoc.mpr (.inr ⟨rfl, rfl, hsaid⟩)
  constructor
  · rintro ⟨hassigns, hnone⟩
    rcases assigns_snoc.mp hassigns with hold | ⟨hi, _, hvalue⟩
    · exact absurd hlast (hnone lines.length v hold.lt_length)
    · rw [hsaid] at hvalue
      cases hvalue
      exact ⟨hi, rfl⟩
  · rintro ⟨rfl, rfl⟩
    refine ⟨hlast, fun j other hj hassigns => ?_⟩
    have hlt := hassigns.lt_length
    rw [List.length_append, List.length_singleton] at hlt
    omega

/-- **The last assignment counts.** By induction on the lines from the end: the last line either is
the one that counts, or does not matter. -/
theorem get?_readAll {lines : List Bytes} {name key value : Bytes} :
    (readAll lines).1.get? name key = some value ↔ ∃ i, AssignsLast lines i name key value := by
  induction lines using List.reverseRecOn with
  | nil =>
    constructor
    · intro h
      cases h
    · rintro ⟨i, hassigns, _⟩
      exact absurd hassigns.lt_length (Nat.not_lt_zero i)
  | append_singleton lines line ih =>
    rw [readAll_snoc]
    -- a line that says nothing about the key leaves both sides as they are
    have unchanged (hget : (readLine (readAll lines) (said line)).1.get? name key =
        (readAll lines).1.get? name key)
          (hother : ∀ v, ¬(sectionAfter lines = name ∧ said line = .assignment key v)) :
          (readLine (readAll lines) (said line)).1.get? name key = some value ↔
            ∃ i, AssignsLast (lines ++ [line]) i name key value := by
      rw [hget, ih]
      exact exists_congr fun i => (assignsLast_snoc_of_other hother).symm
    cases hsaid : said line with
    | idle =>
      rw [hsaid] at unchanged
      exact unchanged rfl (by simp)
    | header opened =>
      rw [hsaid] at unchanged
      exact unchanged (get?_openSection ..) (by simp)
    | assignment k v =>
      rw [hsaid] at unchanged
      have hget : (readLine (readAll lines) (.assignment k v)).1.get? name key =
          if name = sectionAfter lines ∧ key = k then some v
            else (readAll lines).1.get? name key := by
        rw [← readAll_section]
        exact get?_assign ..
      by_cases hsame : name = sectionAfter lines ∧ key = k
      · rw [hget, if_pos hsame, hsame.1, hsame.2]
        simp only [assignsLast_snoc_of_same hsaid, Option.some.injEq, exists_eq_left]
      · refine unchanged (hget.trans (if_neg hsame)) ?_
        rintro w ⟨hname, hagain⟩
        cases hagain
        exact hsame ⟨hname.symm, rfl⟩

/-! ## What does not count -/

section

open Bytes

/-- The lines of two texts with an end of line between are those of the one and those of
the other. -/
theorem meaningful_append (a b : Bytes) :
    meaningful (a ++ 10 :: b) = meaningful a ++ meaningful b := by
  unfold meaningful
  rw [split_append, List.map_append, List.filter_append]

theorem meaningful_cons_space {c : UInt8} (hc : isSpace c = true) (source : Bytes) :
    meaningful (c :: source) = meaningful source := by
  by_cases hnewline : c = 10
  · subst hnewline
    exact meaningful_append [] source
  · obtain ⟨piece, pieces, hsource, hcons⟩ := split_cons_of_ne hnewline source
    unfold meaningful
    rw [hcons, hsource, List.map_cons, List.map_cons, trim_cons_space hc]

theorem meaningful_concat_space {c : UInt8} (hc : isSpace c = true) (source : Bytes) :
    meaningful (source ++ [c]) = meaningful source := by
  by_cases hnewline : c = 10
  · subst hnewline
    rw [meaningful_append]
    exact List.append_nil _
  · obtain ⟨pieces, piece, hsource, hconcat⟩ := split_concat_of_ne hnewline source
    unfold meaningful
    rw [hconcat, hsource, List.map_append, List.map_append, List.map_singleton, List.map_singleton,
      trim_concat_space hc]

theorem meaningful_pad {pad pad' : Bytes} (hpad : Blank pad) (hpad' : Blank pad') (source : Bytes) :
    meaningful (pad ++ source ++ pad') = meaningful source := by
  have hleft : meaningful (pad ++ source) = meaningful source := by
    induction pad with
    | nil => rfl
    | cons c pad ih =>
      rw [List.cons_append, meaningful_cons_space (hpad c List.mem_cons_self),
        ih fun b hb => hpad b (List.mem_cons_of_mem c hb)]
  rw [← hleft]
  clear hleft
  induction pad' using List.reverseRecOn with
  | nil => rw [List.append_nil]
  | append_singleton pad' c ih =>
    rw [← List.append_assoc, meaningful_concat_space (hpad' c (by simp)),
      ih fun b hb => hpad' b (List.mem_append_left _ hb)]

theorem meaningful_comment {comment : Bytes} (hline : 10 ∉ comment) :
    meaningful (35 :: comment) = [] := by
  have hline : 10 ∉ 35 :: comment := by simpa using hline
  unfold meaningful
  rw [split_of_not_mem hline, List.map_singleton, trim_cons_of_not_space (by decide)]
  rfl

end

/-- **What a document answers.** Let a text be loaded, whatever was loaded before. A key of a
section is there exactly if some line that says something `Assigns` it, and its value is then the
one from the last such line (`AssignsLast`); otherwise a caller gets the default. Names of sections
and keys within a section occur once. All of it comes from the lines that say something, in their
order: white space around the text of a line or on lines of its own, carriage returns among it, and
comment lines do not count. -/
theorem lookup_last_assignment (d : Document) (source : Bytes) :
    (∀ name key, (d.load source).has name key = true ↔
      ∃ i value, Assigns (meaningful source) i name key value) ∧
      (∀ name key value default i, AssignsLast (meaningful source) i name key value →
        (d.load source).string name key default = value) ∧
      (∀ name key default, (¬∃ i value, Assigns (meaningful source) i name key value) →
        (d.load source).string name key default = default) ∧
      (d.load source).Distinct ∧
      (∀ d' source', meaningful source' = meaningful source → load d' source' = d.load source) ∧
      (∀ a b, meaningful (a ++ 10 :: b) = meaningful a ++ meaningful b) ∧
      (∀ pad line pad', Bytes.Blank pad → Bytes.Blank pad' →
        meaningful (pad ++ line ++ pad') = meaningful line) ∧
      (∀ comment, 10 ∉ comment → meaningful (35 :: comment) = []) := by
  -- all lookups go through `get?`, which finds the last assignment
  have hget (name key value : Bytes) :
      (d.load source).get? name key = some value ↔
        ∃ i, AssignsLast (meaningful source) i name key value := by
    rw [load_eq]
    exact get?_readAll
  have hhas (name key : Bytes) :
      (d.load source).has name key = true ↔
        ∃ i value, Assigns (meaningful source) i name key value := by
    rw [has, Option.isSome_iff_exists]
    constructor
    · rintro ⟨value, hvalue⟩
      obtain ⟨i, hassigns, _⟩ := (hget name key value).mp hvalue
      exact ⟨i, value, hassigns⟩
    · rintro ⟨i, value, hassigns⟩
      obtain ⟨j, v, hlast⟩ := exists_assignsLast hassigns
      exact ⟨v, (hget name key v).mpr ⟨j, hlast⟩⟩
  refine ⟨hhas, fun name key value default i hlast => ?_, fun name key default hnone => ?_, ?_,
    fun d' source' hsame => ?_, meaningful_append, fun pad line pad' hpad hpad' =>
      meaningful_pad hpad hpad' line,
    fun comment => meaningful_comment⟩
  · rw [string, (hget name key value).mpr ⟨i, hlast⟩]
    rfl
  · have habsent : (d.load source).get? name key = none := by
      rw [← Option.not_isSome_iff_eq_none]
      exact fun hsome => hnone ((hhas name key).mp hsome)
    rw [string, habsent]
    rfl
  · rw [load_eq]
    exact distinct_readAll _
  · rw [load_eq, load_eq, hsame]

/-- A key that is assigned twice, with another section and a comment between, the header of its own
section once more, and line ends of either kind. -/
def restated :
    Bytes :=
      text "[pool]\nsize = 1\n[other]\r\nsize = 3\n # again\n\n [ pool ]\r\n\tsize=\"2\" # two\r\n"

theorem lookup_last_assignment_restated :
    AssignsLast (meaningful restated) 5 (text "pool") (text "size") (text "2") ∧
      (empty.load restated).string (text "pool") (text "size") [] = text "2" := by
  have hvalue : Denotes (Bytes.trim (text "\"2\" # two")) (text "2") := by
    show Denotes (34 :: (text "2" ++ 34 :: text " # two")) (text "2")
    exact .quoted (by decide)
  have hassigns : Assigns (meaningful restated) 5 (text "pool") (text "size") (text "2") :=
    ⟨_, text "size", text "\"2\" # two", rfl, rfl, rfl, rfl, by decide, rfl, hvalue⟩
  have hlast : AssignsLast (meaningful restated) 5 (text "pool") (text "size") (text "2") := by
    refine ⟨hassigns, fun j other hj hlater => ?_⟩
    have hlen : (meaningful restated).length = 6 := by decide
    have := hlater.lt_length
    omega
  exact ⟨hlast, (lookup_last_assignment empty restated).2.1 _ _ _ _ _ hlast⟩

end Headroom.Document
