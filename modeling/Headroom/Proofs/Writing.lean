import Headroom.Proofs.Lookup
import Mathlib.Tactic.MkIffOfInductiveProp

/-!
# Documents that are written

A writer for documents, beside the reader. Each assignment is written on two lines, the header of
its section and the key with the value in quotes, so that no assignment depends on the ones before
it.

* **`Assignment.Writable`**: the names and keys that a line can carry. A value may hold all but a
  quote and a line break.
* **`said_header`**, **`said_assignment`**: each of the two lines says what it was written for. Here
  the names, the keys and the values meet the rules of the reader: white space, comments, brackets,
  equals signs and quotes.
* **`readAll_written`**: reading what was written makes the assignments one after the other.
* **`written_document_reads_back`**: every pair has the value of its last assignment, and no other
  pair is there.
-/

namespace Headroom.Document

open Bytes (tidy trim)

/-- A key of a section is given a value: what a program that writes settings has to express. -/
structure Assignment where
  name : Bytes
  key : Bytes
  value : Bytes
deriving Repr, DecidableEq

namespace Assignment

/-- What can be written so that it is read as it was meant. None of the three parts breaks the line;
name and key are `tidy`, a key begins neither a comment nor a header and has no equals sign, and a
value has no quote. -/
@[mk_iff]
structure Writable (a : Assignment) : Prop where
  name_line : 10 ∉ a.name
  name_tidy : tidy a.name = true
  key_line : 10 ∉ a.key
  key_tidy : tidy a.key = true
  key_some : a.key ≠ []
  key_equals : 61 ∉ a.key
  key_comment : a.key.head? ≠ some 35
  key_bracket : a.key.head? ≠ some 91
  value_line : 10 ∉ a.value
  value_quote : 34 ∉ a.value

instance (a : Assignment) : Decidable a.Writable := decidable_of_iff _ (writable_iff a).symm

def header (a : Assignment) : Bytes := 91 :: (a.name ++ [93])

def quoted (value : Bytes) : Bytes := 34 :: (value ++ [34])

def body (a : Assignment) : Bytes := a.key ++ 32 :: 61 :: 32 :: quoted a.value

def lines (a : Assignment) : List Bytes := [a.header, a.body]

/-- An assignment is made to a document whatever section is open. -/
def apply (d : Document) (a : Assignment) : Document :=
  (d.openSection a.name).assign a.name a.key a.value

end Assignment

/-- The text that makes some assignments, one after the other, each under the header of
its section. -/
def write (as : List Assignment) : Bytes := (as.flatMap Assignment.lines).flatMap (· ++ [10])

/-! ## The lines of an assignment -/

namespace Assignment

variable {a : Assignment}

theorem tidy_header (a : Assignment) : tidy a.header = true := by
  have hlast : a.header.getLast? = some 93 := by
    show ((91 :: a.name) ++ [93]).getLast? = some 93
    exact List.getLast?_concat
  unfold tidy
  rw [hlast]
  rfl

theorem said_header (h : a.Writable) : said a.header = .header a.name := by
  rw [header, said_brackets, Bytes.trim_of_tidy h.name_tidy]

theorem tidy_quoted (value : Bytes) : tidy (quoted value) = true := by
  have hlast : (quoted value).getLast? = some 34 := by
    show ((34 :: value) ++ [34]).getLast? = some 34
    exact List.getLast?_concat
  unfold tidy
  rw [hlast]
  rfl

theorem head?_body (h : a.Writable) : a.body.head? = a.key.head? := by
  obtain ⟨c, rest, hkey⟩ := List.exists_cons_of_ne_nil h.key_some
  unfold body
  rw [hkey]
  rfl

theorem tidy_body (h : a.Writable) : tidy a.body = true := by
  have hlast : a.body.getLast? = (quoted a.value).getLast? := by
    show (a.key ++ ([32, 61, 32] ++ quoted a.value)).getLast? = _
    rw [← List.append_assoc]
    exact List.getLast?_append_of_ne_nil _ (List.cons_ne_nil _ _)
  have hkey := (Bool.and_eq_true_iff.mp h.key_tidy).1
  have hvalue := (Bool.and_eq_true_iff.mp (tidy_quoted a.value)).2
  unfold tidy
  rw [head?_body h, hlast, hkey, hvalue]
  rfl

/-- The first equals sign is the one that was put there, and the first quote after the opening one
is the closing one, whatever else the value holds. -/
theorem said_assignment (h : a.Writable) : said a.body = .assignment a.key a.value := by
  have hheader : isHeader a.body = false := by
    unfold isHeader
    rw [head?_body h, beq_eq_false_iff_ne.mpr h.key_bracket, Bool.false_and]
  have hline : a.body = (a.key ++ [32]) ++ 61 :: (32 :: quoted a.value) := by
    rw [List.append_assoc]
    rfl
  have hfirst : 61 ∉ a.key ++ [32] := by
    rw [List.mem_append, not_or]
    exact ⟨h.key_equals, by decide⟩
  have hkey : trim (a.key ++ [32]) = a.key := by
    rw [Bytes.trim_concat_space (by decide)]
    exact Bytes.trim_of_tidy h.key_tidy
  have hvalue : Denotes (trim (32 :: quoted a.value)) a.value := by
    rw [Bytes.trim_cons_space (by decide), Bytes.trim_of_tidy (tidy_quoted a.value)]
    exact .quoted h.value_quote
  exact said_eq_assignment.mpr ⟨hheader, _, _, hline, hfirst, hkey, hvalue⟩

theorem not_mem_lines (h : a.Writable) {line : Bytes} (hline : line ∈ a.lines) : 10 ∉ line := by
  have hheader : 10 ∉ a.header := by
    simp [header, h.name_line]
  have hbody : 10 ∉ a.body := by
    simp [body, quoted, h.key_line, h.value_line]
  simp only [lines, List.mem_cons, List.not_mem_nil, or_false] at hline
  rcases hline with rfl | rfl
  · exact hheader
  · exact hbody

theorem speaks_lines (h : a.Writable) {line : Bytes} (hline : line ∈ a.lines) :
    tidy line = true ∧ speaks line = true := by
  simp only [lines, List.mem_cons, List.not_mem_nil, or_false] at hline
  rcases hline with rfl | rfl
  · exact ⟨tidy_header a, rfl⟩
  · refine ⟨tidy_body h, ?_⟩
    have hsome : a.body ≠ [] := by simp [body]
    have hcomment : a.body.head? ≠ some 35 := head?_body h ▸ h.key_comment
    simp [speaks, hsome, hcomment]

end Assignment

/-! ## Reading what was written -/

section

variable {as : List Assignment}

/-- All lines that are written say something (`meaningful`), and none of them is split in two. -/
theorem meaningful_write (h : ∀ a ∈ as, a.Writable) :
    meaningful (write as) = as.flatMap Assignment.lines := by
  have hline : ∀ line ∈ as.flatMap Assignment.lines, 10 ∉ line ∧ tidy line = true ∧
      speaks line = true := by
    intro line hline
    obtain ⟨a, ha, hline⟩ := List.mem_flatMap.mp hline
    exact ⟨Assignment.not_mem_lines (h a ha) hline, Assignment.speaks_lines (h a ha) hline⟩
  have htrim : (as.flatMap Assignment.lines).map trim = as.flatMap Assignment.lines := by
    have hsame : ∀ line ∈ as.flatMap Assignment.lines, trim line = id line := fun line hmem =>
      Bytes.trim_of_tidy (hline line hmem).2.1
    rw [List.map_congr_left hsame, List.map_id]
  unfold meaningful write
  rw [Bytes.split_lines fun line hmem => (hline line hmem).1, List.map_append, List.filter_append,
    htrim, List.filter_eq_self.mpr fun line hmem => (hline line hmem).2.2]
  exact List.append_nil _

/-- The two lines of an assignment make it, whatever was read before. -/
theorem readAll_assignment (lines : List Bytes) {a : Assignment} (h : a.Writable) :
    readAll (lines ++ a.lines) = (a.apply (readAll lines).1, a.name) := by
  have hlines : lines ++ a.lines = (lines ++ [a.header]) ++ [a.body] := by
    rw [List.append_assoc]
    rfl
  rw [hlines, readAll_snoc, readAll_snoc, Assignment.said_header h, Assignment.said_assignment h]
  rfl

theorem readAll_written (h : ∀ a ∈ as, a.Writable) :
    (readAll (as.flatMap Assignment.lines)).1 = as.foldl Assignment.apply empty := by
  induction as using List.reverseRecOn with
  | nil => rfl
  | append_singleton as a ih =>
    rw [List.flatMap_append, List.flatMap_singleton, readAll_assignment _ (h a (by simp)),
      ih fun b hb => h b (List.mem_append_left _ hb), List.foldl_append]
    rfl

theorem get?_apply (d : Document) (a : Assignment) (name key : Bytes) :
    (a.apply d).get? name key = if name = a.name ∧ key = a.key then some a.value
      else d.get? name key := by
  unfold Assignment.apply
  rw [get?_assign, get?_openSection]

theorem get?_foldl_of_not_mem (d : Document) {name key : Bytes}
    (h : ∀ a ∈ as, a.name = name → a.key ≠ key) :
    (as.foldl Assignment.apply d).get? name key = d.get? name key := by
  induction as generalizing d with
  | nil => rfl
  | cons a rest ih =>
    rw [List.foldl_cons, ih _ fun b hb => h b (List.mem_cons_of_mem a hb), get?_apply, if_neg]
    rintro ⟨hname, hkey⟩
    exact h a List.mem_cons_self hname.symm hkey.symm

/-- A pair that is assigned has the value of the last assignment. -/
theorem get?_foldl_of_last (d : Document) {earlier later : List Assignment} {a : Assignment}
    (h : ∀ b ∈ later, b.name = a.name → b.key ≠ a.key) :
    ((earlier ++ a :: later).foldl Assignment.apply d).get? a.name a.key = some a.value := by
  rw [List.foldl_append, List.foldl_cons, get?_foldl_of_not_mem _ h, get?_apply, if_pos ⟨rfl, rfl⟩]

/-- Later assignments may change a value but never take it away. -/
theorem has_foldl (d : Document) {name key : Bytes} (h : d.has name key = true) :
    (as.foldl Assignment.apply d).has name key = true := by
  induction as generalizing d with
  | nil => exact h
  | cons a rest ih =>
    apply ih
    unfold has
    rw [get?_apply]
    split
    · rfl
    · exact h

/-- **Writing and reading.** Let assignments that are `Writable` be written, each with the header of
its section, and the text be loaded, whatever was loaded before. Then every pair of a section and a
key that was assigned is there and has the value of its last assignment, byte for byte; no other
pair is there. -/
theorem written_document_reads_back (d : Document) (as : List Assignment)
    (h : ∀ a ∈ as, a.Writable) :
    (∀ a ∈ as, (d.load (write as)).has a.name a.key = true) ∧
      (∀ earlier a later default, as = earlier ++ a :: later →
        (∀ b ∈ later, b.name = a.name → b.key ≠ a.key) →
        (d.load (write as)).string a.name a.key default = a.value) ∧
      (∀ name key, (∀ a ∈ as, a.name = name → a.key ≠ key) →
        (d.load (write as)).has name key = false) := by
  -- reading what was written is to apply the assignments in order
  have hload : d.load (write as) = as.foldl Assignment.apply empty := by
    rw [load_eq, meaningful_write h, readAll_written h]
  rw [hload]
  refine ⟨fun a ha => ?_, fun earlier a later default hsplit hlast => ?_, fun name key hnone => ?_⟩
  · obtain ⟨earlier, later, rfl⟩ := List.append_of_mem ha
    rw [List.foldl_append, List.foldl_cons]
    apply has_foldl
    unfold has
    rw [get?_apply, if_pos ⟨rfl, rfl⟩]
    rfl
  · unfold string
    rw [hsplit, get?_foldl_of_last _ hlast]
    rfl
  · unfold has
    rw [get?_foldl_of_not_mem _ hnone]
    rfl

end

/-- Two values for one pair with another section in between, a pair without a section, and values of
characters that mean something elsewhere on a line. -/
def hostile : List Assignment :=
  [⟨text "pool", text "size", text "1"⟩, ⟨text "a]b #=[", text "size", []⟩,
    ⟨[], text "k#[ ]", text " [x] = #1\t\r"⟩, ⟨text "pool", text "size", text " = # "⟩]

theorem written_document_reads_back_hostile :
    (∀ a ∈ hostile, a.Writable) ∧
      (empty.load (write hostile)).string (text "pool") (text "size") (text "none") = text " = # " ∧
      (empty.load (write hostile)).string [] (text "k#[ ]") (text "none") = text " [x] = #1\t\r" ∧
      (empty.load (write hostile)).has (text "pool") (text "k#[ ]") = false := by
  have hwritable : ∀ a ∈ hostile, a.Writable := by decide
  obtain ⟨_, hvalue, hnone⟩ := written_document_reads_back empty hostile hwritable
  refine ⟨hwritable, ?_, ?_, ?_⟩
  · exact hvalue (hostile.take 3) ⟨text "pool", text "size", text " = # "⟩ []
      (text "none") rfl nofun
  · exact hvalue (hostile.take 2) ⟨[], text "k#[ ]", text " [x] = #1\t\r"⟩ (hostile.drop 3)
      (text "none") rfl (by decide)
  · exact hnone (text "pool") (text "k#[ ]") (by decide)

end Headroom.Document
