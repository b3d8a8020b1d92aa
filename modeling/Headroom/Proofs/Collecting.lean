import Headroom.Exposition
import Headroom.Proofs.Strings
import Mathlib.Data.List.Nodup
import Mathlib.Data.Prod.Basic

/-!
# Metrics that are collected

A collector for metrics, beside the writer. It takes the text line by line and knows three kinds of
lines: help, types and samples with one or two labels.

* **`Numeral.shortest`**: the text of a double has no byte below the plus sign, so no space, no
  quote and no newline.
* **`unquote?_escape`**: a label value is found again before the quote that ends it, whatever bytes
  it has.
* **`ofBytes?_render`**, **`read?_lines`**: legible lines are read as they were meant, one and all.
* **`read?_render`**: from the text of families the collector has their lines.
* **`grouped_lines`**, **`nodup_told`**, **`count?_of_told`**: what it then knows. Samples follow
  the header of their family, families with different names and series with different labels do not
  meet, and counts have their value.
-/

namespace Headroom

/-! ## The text of numbers -/

/-- Text that a number can have: something, and no byte below the plus sign. In particular no blank
and no end of line, which is all that a collector needs to find where a value ends. -/
def Numeral (s : Bytes) : Prop := s ≠ [] ∧ ∀ c ∈ s, 43 ≤ c

namespace Numeral

variable {s ds : Bytes}

theorem of_all (hsome : s.isEmpty = false) (h : s.all (43 ≤ ·) = true) : Numeral s := by
  refine ⟨List.isEmpty_eq_false_iff.mp hsome, fun c hc => ?_⟩
  exact of_decide_eq_true (List.all_eq_true.mp h c hc)

theorem ofNat (n : Nat) : Numeral (Bytes.ofNat n) := by
  refine ⟨Bytes.ofNat_ne_nil n, fun c hc => ?_⟩
  have hdigit := Bytes.isDigit_of_mem_ofNat hc
  simp only [Bytes.isDigit, Bool.and_eq_true, decide_eq_true_eq] at hdigit
  exact UInt8.le_trans (by decide) hdigit.1

theorem zeros {k : Nat} : ∀ c ∈ List.replicate k (48 : UInt8), (43 : UInt8) ≤ c := by
  intro c hc
  rw [List.eq_of_mem_replicate hc]
  decide

theorem signed (h : Numeral s) (negative : Bool) : Numeral (Fixed.signed negative s) := by
  cases negative with
  | false => exact h
  | true => exact ⟨List.cons_ne_nil _ _, List.forall_mem_cons.mpr ⟨by decide, h.2⟩⟩

theorem layout (n : Nat) : Numeral (Fixed.layout 0 n) := by
  have hn := ofNat n
  unfold Fixed.layout
  dsimp only
  rw [if_pos (beq_self_eq_true 0), Nat.sub_zero, List.take_length]
  exact ⟨List.append_ne_nil_of_right_ne_nil _ hn.1, List.forall_mem_append.mpr ⟨zeros, hn.2⟩⟩

/-- Digits with a point, and zeros on either side where they are needed. -/
theorem positional (h : Numeral ds) (e : Int) : Numeral (Shortest.positional ds e) := by
  unfold Shortest.positional
  dsimp only
  split
  · exact ⟨List.append_ne_nil_of_left_ne_nil h.1 _, List.forall_mem_append.mpr ⟨h.2, zeros⟩⟩
  · split
    · refine ⟨List.append_ne_nil_of_right_ne_nil _ (List.cons_ne_nil _ _),
        List.forall_mem_append.mpr ⟨?_, ?_⟩⟩
      · exact fun c hc => h.2 c (List.mem_of_mem_take hc)
      · exact List.forall_mem_cons.mpr ⟨by decide, fun c hc => h.2 c (List.mem_of_mem_drop hc)⟩
    · refine ⟨List.append_ne_nil_of_right_ne_nil _ h.1, List.forall_mem_append.mpr ⟨?_, h.2⟩⟩
      exact List.forall_mem_append.mpr ⟨(of_all rfl rfl).2, zeros⟩

theorem fraction (h : ∀ c ∈ ds, 43 ≤ c) : ∀ c ∈ Significant.fraction ds, 43 ≤ c := by
  unfold Significant.fraction
  split
  · exact List.forall_mem_nil _
  · exact List.forall_mem_cons.mpr ⟨by decide, h⟩

theorem exponentMark (e : Int) : Numeral (Significant.exponentMark e) := by
  have hsign : (43 : UInt8) ≤ if e < 0 then 45 else 43 := by split <;> decide
  refine ⟨List.cons_ne_nil _ _, List.forall_mem_cons.mpr ⟨by decide,
    List.forall_mem_cons.mpr ⟨hsign, ?_⟩⟩⟩
  exact List.forall_mem_append.mpr ⟨zeros, (ofNat _).2⟩

theorem scientific (h : Numeral ds) (e : Int) : Numeral (Shortest.scientific ds e) := by
  refine ⟨List.append_ne_nil_of_right_ne_nil _ (exponentMark _).1,
    List.forall_mem_append.mpr ⟨?_, (exponentMark _).2⟩⟩
  refine List.forall_mem_append.mpr ⟨fun c hc => h.2 c (List.mem_of_mem_take hc), ?_⟩
  exact fraction fun c hc => h.2 c (List.mem_of_mem_drop hc)

/-- Every double is written as a `Numeral`, those that are not finite included. -/
theorem shortest (x : Float) : Numeral (Shortest.render x) := by
  unfold Shortest.render
  split
  · exact of_all rfl rfl
  · exact signed (of_all rfl rfl) _
  · exact signed (of_all rfl rfl) _
  · next negative mantissa exponent _ _ =>
    obtain ⟨n, e⟩ := Shortest.select mantissa exponent
    apply signed
    split
    · exact scientific (ofNat n) e
    · split
      · exact layout _
      · exact positional (ofNat n) e

end Numeral

namespace Exposition

/-- Whatever value a series has, it is written as a `Numeral`. -/
theorem Value.numeral_render (v : Value) : Numeral v.render := by
  cases v with
  | count n => exact Numeral.ofNat n
  | amount x => exact Numeral.shortest x

/-! ## The collector -/

/-- What a collector tells apart: the two kinds of header lines, and samples. -/
inductive Line
  | help (name words : Bytes)
  | type (name kind : Bytes)
  | sample (name : Bytes) (labels : List (Bytes × Bytes)) (value : Bytes)
deriving Repr, DecidableEq

/-- Letters, digits and the underscore. -/
def isNameByte (c : UInt8) : Bool :=
  (97 ≤ c && c ≤ 122) || c == 95 || (65 ≤ c && c ≤ 90) || Bytes.isDigit c

/-- A name is something that consists of `isNameByte`s. -/
def isName (s : Bytes) : Bool := !s.isEmpty && s.all isNameByte

/-- A value is any text without blanks, quotes and ends of line; what number it stands for is not
the collector's question. -/
def isValue (s : Bytes) : Bool := !s.isEmpty && s.all fun c => c != 32 && c != 34 && c != 10

/-- What stands for a byte after a backslash: the inverse of `escapeByte` on the three bytes that it
changes. -/
def unescape? (c : UInt8) : Option UInt8 :=
  if c = 92 then some 92 else if c = 34 then some 34 else if c = 110 then some 10 else none

/-- A label value with the escapes undone, and what follows the quote that ends it. A backslash
before any other byte than the three that are escaped is refused. -/
def unquote? : Bytes → Option (Bytes × Bytes)
  | [] => none
  | c :: rest =>
    if c = 34 then some ([], rest)
    else if c = 92 then
      match rest with
      | [] => none
      | d :: rest => (unescape? d).bind fun b => (unquote? rest).map fun (value, after) =>
        (b :: value, after)
    else (unquote? rest).map fun (value, after) => (c :: value, after)

def expect? (c : UInt8) : Bytes → Option Bytes
  | [] => none
  | d :: rest => if d = c then some rest else none

def label? (s : Bytes) : Option ((Bytes × Bytes) × Bytes) := do
  let (key, s) ← Bytes.cut? 61 s
  let s ← expect? 34 s
  let (value, s) ← unquote? s
  if isName key then some ((key, value), s) else none

/-- One label or two of them, and what follows the closing brace. -/
def labels? (s : Bytes) : Option (List (Bytes × Bytes) × Bytes) := do
  let (first, s) ← label? s
  if s.head? = some 44 then
    let (second, s) ← label? s.tail
    let s ← expect? 125 s
    some ([first, second], s)
  else
    let s ← expect? 125 s
    some ([first], s)

/-- A sample is a name, labels in braces and a value behind a blank. -/
def sample? (s : Bytes) : Option Line := do
  let (name, s) ← Bytes.cut? 123 s
  let (labels, s) ← labels? s
  let value ← expect? 32 s
  if isName name && isValue value then some (.sample name labels value) else none

/-- A header line is told by its keyword. Any other comment is refused, so that no line is lost
silently. -/
def comment? (s : Bytes) : Option Line := do
  let (mark, s) ← Bytes.cut? 32 s
  let (keyword, s) ← Bytes.cut? 32 s
  let (name, words) ← Bytes.cut? 32 s
  if mark ≠ [35] ∨ isName name = false then none
  else if keyword = text "HELP" then some (.help name words)
  else if keyword = text "TYPE" then some (.type name words)
  else none

def Line.ofBytes? (s : Bytes) : Option Line := if s.head? = some 35 then comment? s else sample? s

/-- All lines of a text. The last one ends with a newline too, and a text that does not
is refused. -/
def read? (s : Bytes) : Option (List Line) :=
  let pieces := Bytes.split 10 s
  if pieces.getLast? = some [] then pieces.dropLast.mapM Line.ofBytes? else none

/-- The samples by name and label values, in the order of the text. -/
def entries (ls : List Line) : List ((Bytes × List Bytes) × Bytes) :=
  ls.filterMap fun
    | .sample name labels value => some ((name, labels.map Prod.snd), value)
    | _ => none

/-- A value that is a natural number in decimal digits. -/
def natural? (s : Bytes) : Option Nat :=
  if !s.isEmpty && s.all Bytes.isDigit then some (Bytes.digitsValue s) else none

/-- The count that was collected for a series: the value of its first sample, if that is a natural
number. -/
def count? (ls : List Line) (series : Bytes × List Bytes) : Option Nat :=
  ((entries ls).lookup series).bind natural?

theorem isValue_of_numeral {s : Bytes} (h : Numeral s) : isValue s = true := by
  have hsome : s.isEmpty = false := by simpa using h.1
  unfold isValue
  rw [hsome, Bool.not_false, Bool.true_and, List.all_eq_true]
  intro c hc
  have hle : 43 ≤ c := h.2 c hc
  -- all three are below the plus sign
  have hne : ∀ d : UInt8, d < 43 → (c != d) = true := fun d hd =>
    bne_iff_ne.mpr fun heq => absurd (UInt8.lt_of_lt_of_le hd hle) (by simp [heq])
  rw [hne 32 (by decide), hne 34 (by decide), hne 10 (by decide)]
  rfl

/-! ## Label values -/

@[simp]
theorem expect?_cons (c : UInt8) (rest : Bytes) : expect? c (c :: rest) = some rest := if_pos rfl

theorem unquote?_quote (after : Bytes) : unquote? (34 :: after) = some ([], after) := by
  rw [unquote?.eq_def]
  rfl

/-- A byte that `escapeByte` has changed is read as that byte, before anything. -/
theorem unquote?_escapeByte (c : UInt8) (s : Bytes) :
    unquote? (escapeByte c ++ s) = (unquote? s).map fun (value, after) => (c :: value, after) := by
  unfold escapeByte
  split
  · next h => rw [eq_of_beq h]; rfl
  · next hslash =>
    split
    · next h => rw [eq_of_beq h]; rfl
    · next hquote =>
      split
      · next h => rw [eq_of_beq h]; rfl
      · rw [List.singleton_append, unquote?.eq_def]
        dsimp only
        rw [if_neg (by simpa using hquote), if_neg (by simpa using hslash)]

/-- `unquote?` undoes `escape`: the first quote without a backslash before it is the one that was
put at the end, whatever bytes the value has. -/
theorem unquote?_escape (value after : Bytes) :
    unquote? (escape value ++ 34 :: after) = some (value, after) := by
  induction value with
  | nil => exact unquote?_quote after
  | cons c value ih =>
    rw [escape, List.flatMap_cons, List.append_assoc, unquote?_escapeByte]
    rw [escape] at ih
    rw [ih]
    rfl

theorem newline_not_mem_escape (value : Bytes) : 10 ∉ escape value := by
  intro h
  obtain ⟨c, -, hc⟩ := List.mem_flatMap.mp h
  revert hc
  unfold escapeByte
  split
  · decide
  · split
    · decide
    · split
      · decide
      · next hline =>
        intro hc
        exact hline (beq_iff_eq.mpr (List.mem_singleton.mp hc).symm)

/-! ## Lines -/

section
variable {s key value after : Bytes} {c : UInt8}

theorem not_mem_of_isName (h : isName s = true) (hc : isNameByte c = false) : c ∉ s := by
  intro hmem
  have hall := List.all_eq_true.mp (Bool.and_eq_true_iff.mp h).2 c hmem
  rw [hc] at hall
  cases hall

theorem label_append (l : Bytes × Bytes) (after : Bytes) :
    label l ++ after = l.1 ++ 61 :: 34 :: (escape l.2 ++ 34 :: after) := by
  simp [label, show text "=\"" = [61, 34] from rfl]

/-- A label is read back by `label?`, with its value as it was before it was escaped. -/
theorem label?_label (hkey : isName key = true) (value after : Bytes) :
    label? (label (key, value) ++ after) = some ((key, value), after) := by
  unfold label?
  rw [label_append, Bytes.cut?_append (not_mem_of_isName hkey rfl)]
  simp [unquote?_escape, hkey]

theorem newline_not_mem_label (hkey : isName key = true) (value : Bytes) :
    10 ∉ label (key, value) := by
  have hname : 10 ∉ key := not_mem_of_isName hkey rfl
  have hvalue := newline_not_mem_escape value
  simp [label, show text "=\"" = [61, 34] from rfl, hname, hvalue]

end

/-- One label, or two of them, of which the first has the given value. The families of this library
have no other lists of labels. -/
inductive Labelled (value : Bytes) : List (Bytes × Bytes) → Prop
  | one {key : Bytes} (hkey : isName key = true) : Labelled value [(key, value)]
  | two {key key' : Bytes} (hkey : isName key = true) (hkey' : isName key' = true)
      (value' : Bytes) :
      Labelled value [(key, value), (key', value')]

namespace Labelled

variable {value : Bytes} {labels : List (Bytes × Bytes)}

/-- The labels of a sample are read back by `labels?` up to the closing brace. -/
theorem labels?_join (h : Labelled value labels) (after : Bytes) :
    labels? (Bytes.join [44] (labels.map label) ++ 125 :: after) = some (labels, after) := by
  unfold labels?
  cases h with
  | one hkey =>
    rw [List.map_singleton, Bytes.join_singleton, label?_label hkey]
    simp
  | two hkey hkey' value' =>
    rw [List.map_cons, List.map_singleton, Bytes.join_cons_cons, Bytes.join_singleton,
      List.append_assoc, List.append_assoc, label?_label hkey]
    simp [label?_label hkey']

theorem newline_not_mem (h : Labelled value labels) : 10 ∉ Bytes.join [44] (labels.map label) := by
  cases h with
  | one hkey => simpa [Bytes.join] using newline_not_mem_label hkey value
  | two hkey hkey' value' =>
    simpa [Bytes.join] using ⟨newline_not_mem_label hkey value, newline_not_mem_label hkey' value'⟩

theorem head?_values (h : Labelled value labels) : (labels.map Prod.snd).head? = some value := by
  cases h <;> rfl

end Labelled

namespace Line

/-- A line without the newline at its end. -/
def render : Line → Bytes
  | help name words => text "# HELP " ++ name ++ 32 :: words
  | type name kind => text "# TYPE " ++ name ++ 32 :: kind
  | sample name labels value =>
    name ++ 123 :: (Bytes.join [44] (labels.map label) ++ 125 :: 32 :: value)

/-- The lines that a collector can tell apart, with `value` as the first label of samples. -/
inductive Legible (value : Bytes) : Line → Prop
  | help {name words : Bytes} (hname : isName name = true) (hwords : 10 ∉ words) :
      Legible value (help name words)
  | type {name kind : Bytes} (hname : isName name = true) (hkind : 10 ∉ kind) :
      Legible value (type name kind)
  | sample {name number : Bytes} {labels : List (Bytes × Bytes)} (hname : isName name = true)
      (hlabels : Labelled value labels) (hnumber : isValue number = true) :
      Legible value (sample name labels number)

variable {value : Bytes} {l : Line}

/-- A header line is read by `comment?`, by its keyword, its name and the words that follow. -/
theorem comment?_append {keyword name : Bytes} (hkeyword : 32 ∉ keyword)
    (hname : isName name = true) (words : Bytes) :
    comment? ([35] ++ 32 :: (keyword ++ 32 :: (name ++ 32 :: words))) =
      if keyword = text "HELP" then some (help name words)
      else if keyword = text "TYPE" then some (type name words) else none := by
  have hspace : 32 ∉ name := not_mem_of_isName hname rfl
  rw [comment?, Bytes.cut?_append (by decide)]
  simp [Bytes.cut?_append hkeyword, Bytes.cut?_append hspace, hname]

/-- What starts with a name is no comment, since `isNameByte` does not hold of the number sign. -/
theorem head?_sample {name : Bytes} (hname : isName name = true) (rest : Bytes) :
    (name ++ rest).head? ≠ some 35 := by
  cases name with
  | nil => cases hname
  | cons c name =>
    intro h
    cases h
    exact not_mem_of_isName hname rfl List.mem_cons_self

theorem ofBytes?_render (h : l.Legible value) : ofBytes? l.render = some l := by
  cases h with
  | @help name words hname hwords =>
    have hline : (help name words).render =
        [35] ++ 32 :: (text "HELP" ++ 32 :: (name ++ 32 :: words)) := by
      simp [render, show text "# HELP " = [35] ++ 32 :: (text "HELP" ++ [32]) from rfl]
    rw [ofBytes?, hline, if_pos (by rfl), comment?_append (by decide) hname]
    rfl
  | @type name kind hname hkind =>
    have hline : (type name kind).render =
        [35] ++ 32 :: (text "TYPE" ++ 32 :: (name ++ 32 :: kind)) := by
      simp [render, show text "# TYPE " = [35] ++ 32 :: (text "TYPE" ++ [32]) from rfl]
    rw [ofBytes?, hline, if_pos (by rfl), comment?_append (by decide) hname]
    rfl
  | @sample name number labels hname hlabels hnumber =>
    have hbrace : 123 ∉ name := not_mem_of_isName hname rfl
    rw [ofBytes?, render, if_neg (head?_sample hname _), sample?, Bytes.cut?_append hbrace]
    simp [hlabels.labels?_join, hname, hnumber]

theorem newline_not_mem_render (h : l.Legible value) : 10 ∉ l.render := by
  cases h with
  | help hname hwords =>
    have hkeyword : 10 ∉ text "# HELP " := by decide
    have hline := not_mem_of_isName hname (show isNameByte 10 = false from rfl)
    simp [render, hkeyword, hline, hwords]
  | type hname hkind =>
    have hkeyword : 10 ∉ text "# TYPE " := by decide
    have hline := not_mem_of_isName hname (show isNameByte 10 = false from rfl)
    simp [render, hkeyword, hline, hkind]
  | @sample name number labels hname hlabels hnumber =>
    have hline := not_mem_of_isName hname (show isNameByte 10 = false from rfl)
    have hvalue : 10 ∉ number := by
      intro hmem
      have hall := List.all_eq_true.mp (Bool.and_eq_true_iff.mp hnumber).2 10 hmem
      cases hall
    simp [render, hline, hlabels.newline_not_mem, hvalue]

end Line

theorem mapM_render {value : Bytes} {ls : List Line} (h : ∀ l ∈ ls, l.Legible value) :
    (ls.map Line.render).mapM Line.ofBytes? = some ls := by
  induction ls with
  | nil => rfl
  | cons l ls ih =>
    obtain ⟨hl, hls⟩ := List.forall_mem_cons.mp h
    rw [List.map_cons, List.mapM_cons, Line.ofBytes?_render hl, ih hls]
    rfl

/-- A text of `Legible` lines is read back line by line. None of them contains a newline, so the
text is split where it was joined. -/
theorem read?_lines {value : Bytes} {ls : List Line} (h : ∀ l ∈ ls, l.Legible value) :
    read? (ls.flatMap (·.render ++ [10])) = some ls := by
  have hlines : ∀ line ∈ ls.map Line.render, 10 ∉ line := by
    rintro _ hmem
    obtain ⟨l, hl, rfl⟩ := List.mem_map.mp hmem
    exact Line.newline_not_mem_render (h l hl)
  have hsplit := Bytes.split_lines hlines
  rw [List.flatMap_map] at hsplit
  unfold read?
  rw [hsplit]
  dsimp only
  rw [List.getLast?_concat, if_pos rfl, List.dropLast_concat, mapM_render h]

/-! ## Families -/

/-- The values of the labels. -/
def Series.values (s : Series) : List Bytes := s.labels.map Prod.snd

namespace Family

/-- What a collector has to find for a family: its two header lines, and a sample for
each series. -/
def lines (f : Family) : List Line :=
  .help f.name f.help :: .type f.name f.type :: f.series.map fun s =>
    .sample f.name s.labels s.value.render

/-- A family whose lines can be told apart: its name is a name, its header lines are single lines,
and every series is `Labelled`. -/
structure Legible (value : Bytes) (f : Family) : Prop where
  name : isName f.name = true
  help : 10 ∉ f.help
  type : 10 ∉ f.type
  labels : ∀ s ∈ f.series, Labelled value s.labels

variable {value : Bytes} {f : Family} {l : Line}

theorem Legible.lines (h : f.Legible value) (hl : l ∈ f.lines) : l.Legible value := by
  rw [Family.lines, List.mem_cons, List.mem_cons, List.mem_map] at hl
  obtain rfl | rfl | ⟨s, hs, rfl⟩ := hl
  · exact .help h.name h.help
  · exact .type h.name h.type
  · exact .sample h.name (h.labels s hs) (isValue_of_numeral s.value.numeral_render)

/-- A family is written as its `lines`, each with a newline. So what a collector has to find and
what is written are the same list. -/
theorem render_eq (f : Family) : f.render = f.lines.flatMap (·.render ++ [10]) := by
  have hseries : f.series.flatMap (Series.render f.name) =
      (f.series.map fun s => Line.sample f.name s.labels s.value.render).flatMap
        (·.render ++ [10]) := by
    rw [List.flatMap_map]
    refine List.flatMap_congr fun s _ => ?_
    simp [Series.render, Line.render]
  rw [Family.render, hseries, Family.lines, List.flatMap_cons, List.flatMap_cons]
  simp [Line.render]

end Family

theorem render_eq_lines (fs : List Family) :
    render fs = (fs.flatMap Family.lines).flatMap (·.render ++ [10]) := by
  rw [render, List.flatMap_assoc]
  exact List.flatMap_congr fun f _ => f.render_eq

/-- The collector has the lines of the families that were written, all of them and in order. -/
theorem read?_render {value : Bytes} {fs : List Family} (h : ∀ f ∈ fs, f.Legible value) :
    read? (render fs) = some (fs.flatMap Family.lines) := by
  rw [render_eq_lines]
  apply read?_lines
  intro l hl
  obtain ⟨f, hf, hlf⟩ := List.mem_flatMap.mp hl
  exact (h f hf).lines hlf

/-! ## What was collected -/

/-- Every sample stands behind the header of its family, with nothing but samples of that family
between. -/
def Grouped (ls : List Line) : Prop :=
  ∀ (before after : List Line) (name : Bytes) (labels : List (Bytes × Bytes)) (value : Bytes),
    ls = before ++ .sample name labels value :: after →
      ∃ front words kind between, before = front ++ .help name words :: .type name kind :: between ∧
        ∀ l ∈ between, ∃ labels value, l = .sample name labels value

theorem Family.grouped (f : Family) : Grouped f.lines := by
  intro before after name labels value h
  rw [Family.lines] at h
  -- the sample is neither of the first two lines
  obtain _ | ⟨first, _ | ⟨second, between⟩⟩ := before
  · cases h
  · cases h
  · simp only [List.cons_append, List.cons.injEq] at h
    obtain ⟨rfl, rfl, h⟩ := h
    have hall : ∀ l ∈ between ++ Line.sample name labels value :: after,
        ∃ labels value, l = .sample f.name labels value := by
      intro l hl
      rw [← h] at hl
      obtain ⟨s, -, rfl⟩ := List.mem_map.mp hl
      exact ⟨_, _, rfl⟩
    obtain ⟨_, _, hname⟩ := hall _ (List.mem_append_right between List.mem_cons_self)
    cases hname
    exact ⟨[], f.help, f.type, between, rfl, fun l hl => hall l (List.mem_append_left _ hl)⟩

theorem Grouped.append {xs ys : List Line} (hxs : Grouped xs) (hys : Grouped ys) :
    Grouped (xs ++ ys) := by
  intro before after name labels value h
  obtain ⟨middle, rfl, hy⟩ | ⟨middle, hx, hy⟩ := List.append_eq_append_iff.mp h
  · obtain ⟨front, words, kind, between, rfl, hall⟩ := hys _ _ _ _ _ hy
    exact ⟨xs ++ front, words, kind, between, by rw [List.append_assoc], hall⟩
  · cases middle with
    | nil =>
      -- nothing of `ys` stands before its first line
      obtain ⟨front, _, _, _, hnil, -⟩ := hys [] _ _ _ _ hy.symm
      exact absurd hnil.symm (by simp)
    | cons l middle =>
      cases hy
      exact hxs _ _ _ _ _ hx

theorem grouped_lines (fs : List Family) : Grouped (fs.flatMap Family.lines) := by
  induction fs with
  | nil =>
    intro before after name labels value h
    exact absurd h.symm (by simp)
  | cons f fs ih => exact f.grouped.append ih

/-- The series of families with their values, which is what `entries` has of their lines. -/
def told (fs : List Family) : List ((Bytes × List Bytes) × Value) :=
  fs.flatMap fun f => f.series.map fun s => ((f.name, s.values), s.value)

theorem entries_lines (fs : List Family) :
    entries (fs.flatMap Family.lines) = (told fs).map fun entry => (entry.1, entry.2.render) := by
  have hfamily : ∀ f : Family, entries f.lines = f.series.map fun s =>
      ((f.name, s.values), s.value.render) := by
    intro f
    show List.filterMap _ (f.series.map _) = _
    rw [List.filterMap_map]
    exact congrFun List.filterMap_eq_map f.series
  unfold entries at hfamily ⊢
  simp only [List.filterMap_flatMap, hfamily, told, List.map_flatMap, List.map_map,
    Function.comp_def]

/-- Families with different names do not share a series, and within a family the label values tell
them apart. -/
theorem nodup_told {fs : List Family} (hnames : (fs.map Family.name).Nodup)
    (hvalues : ∀ f ∈ fs, (f.series.map Series.values).Nodup) : ((told fs).map Prod.fst).Nodup := by
  rw [told, List.map_flatMap, List.nodup_flatMap]
  constructor
  · intro f hf
    have hpairs := (hvalues f hf).map (Prod.mk_right_injective f.name)
    simpa [List.map_map, Function.comp_def] using hpairs
  · refine (List.pairwise_map.mp hnames).imp fun {f g} hne => ?_
    intro series hf hg
    simp only [List.map_map, List.mem_map, Function.comp_apply] at hf hg
    obtain ⟨s, -, rfl⟩ := hf
    obtain ⟨t, -, heq⟩ := hg
    exact hne (congrArg Prod.fst heq).symm

theorem natural?_ofNat (n : Nat) : natural? (Bytes.ofNat n) = some n := by
  have hdigits : (Bytes.ofNat n).all Bytes.isDigit = true :=
    List.all_eq_true.mpr fun c hc => Bytes.isDigit_of_mem_ofNat hc
  simp [natural?, hdigits, Bytes.ofNat_ne_nil, Bytes.digitsValue_ofNat]

/-- The count of a series is collected as it was `told`, if no series is told twice. -/
theorem count?_of_told {fs : List Family} (hnodup : ((told fs).map Prod.fst).Nodup)
    {series : Bytes × List Bytes} {n : Nat} (h : (series, .count n) ∈ told fs) :
    count? (fs.flatMap Family.lines) series = some n := by
  have hkeys : ((entries (fs.flatMap Family.lines)).map Prod.fst).Nodup := by
    rw [entries_lines, List.map_map]
    exact hnodup
  have hmem : (series, Bytes.ofNat n) ∈ entries (fs.flatMap Family.lines) := by
    rw [entries_lines]
    exact List.mem_map_of_mem h
  rw [count?, lookup_of_mem hkeys hmem]
  exact natural?_ofNat n

end Exposition

end Headroom
