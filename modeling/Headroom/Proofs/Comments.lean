import Headroom.Proofs.Lookup

/-!
# Comments at the end of a line

The reader of documents looks for comments at three places: on a line of their own, behind a quoted
value and behind one without quotes. It does not look for them behind the header of a section, so
there they are not transparent.

* **`sayings`**: what the lines of a text say. A document is read from these alone
  (`load_of_sayings`), and each line adds its own (`sayings_join`).
* **`Statement`**, **`Header`**: the lines that a configuration is made of, with white space
  wherever it may stand.
* **`sayings_assignment`**: what an assignment says, with or without a comment; `Spells` is what may
  stand on its right, and a comment does not change what it spells (`Spells.remark`).
* **`Header.said_remark`**: with a comment behind it, a header does not say its name any more.
* **`comment_transparent_iff`**: a comment can be put behind a line, in whatever text it stands,
  exactly if the line is no header and does not turn into one.
-/

namespace Headroom.Document

open Bytes (Blank join trim trimLeft trimRight)

/-! ## What a text says -/

/-- What the lines of a text say, but for those that say nothing. A document depends on a text
through these only. -/
def sayings (source : Bytes) : List Line := (meaningful source).map said

theorem load_of_sayings (d : Document) (source : Bytes) :
    d.load source = ((sayings source).foldl readLine (empty, [])).1 := by
  rw [load_eq, sayings, List.foldl_map]
  rfl

/-- What lines say does not depend on each other: the `sayings` of a text are those of its lines, in
order. -/
theorem sayings_join (lines : List Bytes) : sayings (join [10] lines) = lines.flatMap sayings := by
  induction lines with
  | nil => rfl
  | cons line rest ih =>
    cases rest with
    | nil => rw [Bytes.join_singleton, List.flatMap_singleton]
    | cons next rest =>
      rw [Bytes.join_cons_cons, List.append_assoc, List.singleton_append, sayings,
        meaningful_append, List.map_append, List.flatMap_cons, ← ih]
      rfl

theorem sayings_line {line : Bytes} (hline : 10 ∉ line) :
    sayings line = if speaks (trim line) then [said (trim line)] else [] := by
  unfold sayings meaningful
  rw [Bytes.split_of_not_mem hline, List.map_singleton, List.filter_cons]
  split <;> rfl

/-! ## Lines -/

/-- The line begins with an opening bracket, white space apart. -/
def Opens (line : Bytes) : Prop := (trimLeft line).head? = some 91

/-- The line ends with a closing bracket, white space apart. With `Opens` this is all that makes a
header. -/
def Closes (line : Bytes) : Prop := (trimRight line).getLast? = some 93

instance (line : Bytes) : Decidable (Opens line) := inferInstanceAs (Decidable (_ = _))

instance (line : Bytes) : Decidable (Closes line) := inferInstanceAs (Decidable (_ = _))

/-- What may stand on the left of the first equals sign: anything without an equals sign that does
not begin like a comment. It may be blank. -/
structure IsKey (key : Bytes) : Prop where
  equals : 61 ∉ key
  comment : (trimLeft key).head? ≠ some 35

/-- What stands on the right of it, and the value that is meant: in quotes, or without them. -/
inductive Spells : Bytes → Bytes → Prop
  | quoted {pad value pad' : Bytes} (hpad : Blank pad) (hvalue : 34 ∉ value) (hpad' : Blank pad') :
      Spells (pad ++ 34 :: (value ++ 34 :: pad')) value
  | plain {shown : Bytes} (hhash : 35 ∉ shown) (hquote : 34 ∉ shown) : Spells shown (trim shown)

/-- A line of a configuration that is no header: blank, a comment, or an assignment. -/
inductive Statement : Bytes → Prop
  | blank {pad : Bytes} (hpad : Blank pad) : Statement pad
  | comment {pad body : Bytes} (hpad : Blank pad) : Statement (pad ++ 35 :: body)
  | assignment {key rhs value : Bytes} (hkey : IsKey key) (hrhs : Spells rhs value)
      (hheader : ¬(Opens key ∧ Closes rhs)) : Statement (key ++ 61 :: rhs)

/-- The header of a section, with white space around the brackets or not. -/
inductive Header : Bytes → Bytes → Prop
  | mk {pad name pad' : Bytes} (hpad : Blank pad) (hname : 35 ∉ name) (hpad' : Blank pad') :
      Header name (pad ++ 91 :: (name ++ 93 :: pad'))

/-- White space and a comment, to be put behind a line. Neither holds an end of line, so the line
stays one. -/
structure Remark where
  pad : Bytes
  comment : Bytes
  blank : Blank pad
  pad_line : 10 ∉ pad
  comment_line : 10 ∉ comment

def Remark.bytes (r : Remark) : Bytes := r.pad ++ 35 :: r.comment

theorem Remark.not_mem_append (r : Remark) {line : Bytes} (hline : 10 ∉ line) :
    10 ∉ line ++ r.bytes := by
  simp [Remark.bytes, hline, r.pad_line, r.comment_line]

/-- A line is a header if it `Opens` and `Closes` with a bracket, whatever is between. -/
theorem isHeader_trim (line : Bytes) : isHeader (trim line) = true ↔ Opens line ∧ Closes line := by
  rw [isHeader, Bool.and_eq_true, beq_iff_eq, beq_iff_eq, Bytes.head?_trim, Bytes.getLast?_trim]
  rfl

section
variable {c : UInt8}

theorem opens_append_cons (hspace : Bytes.isSpace c = false) (hc : c ≠ 91) (a b : Bytes) :
    Opens (a ++ c :: b) ↔ Opens a := by
  unfold Opens
  rw [Bytes.trimLeft_append_cons hspace, List.head?_append]
  cases (trimLeft a).head? with
  | none => simpa using hc
  | some first => rfl

theorem closes_append_cons (hspace : Bytes.isSpace c = false) (hc : c ≠ 93) (a b : Bytes) :
    Closes (a ++ c :: b) ↔ Closes b := by
  unfold Closes
  rw [Bytes.trimRight_append_cons hspace, List.getLast?_append_cons]
  cases trimRight b with
  | nil => simpa using hc
  | cons first rest => rw [List.getLast?_cons_cons]

end

/-- A comment ends a line as it ends itself, so a bracket at the end of the comment is one of the
line. -/
theorem closes_remark (line : Bytes) (r : Remark) :
    Closes (line ++ r.bytes) ↔ Closes r.comment := by
  rw [Remark.bytes, ← List.append_assoc]
  exact closes_append_cons (by decide) (by decide) (line ++ r.pad) r.comment

/-! ### Assignments -/

section
variable {key rhs value : Bytes}

theorem isHeader_assignment :
    isHeader (trim (key ++ 61 :: rhs)) = true ↔ Opens key ∧ Closes rhs := by
  rw [isHeader_trim, opens_append_cons (by decide) (by decide),
    closes_append_cons (by decide) (by decide)]

theorem said_assignment_of (hkey : 61 ∉ key) (hheader : ¬(Opens key ∧ Closes rhs)) :
    said (trim (key ++ 61 :: rhs)) = .assignment (trim key) (valueOf rhs) := by
  have hfirst : 61 ∉ trimLeft key := fun h => hkey (Bytes.mem_of_mem_trimLeft h)
  have hvalue : Denotes (trim (trimRight rhs)) (valueOf rhs) := by
    rw [Bytes.trim_trimRight]
    exact denotes_valueOf rhs
  refine said_eq_assignment.mpr ⟨?_, trimLeft key, trimRight rhs, ?_, hfirst,
    Bytes.trim_trimLeft key, hvalue⟩
  · rw [← Bool.not_eq_true, isHeader_assignment]
    exact hheader
  · exact Bytes.trim_append_cons (by decide) key rhs

theorem speaks_assignment (hkey : IsKey key) : speaks (trim (key ++ 61 :: rhs)) = true := by
  have hcomment := hkey.comment
  rw [Bytes.trim_append_cons (by decide), speaks, List.head?_append]
  cases hleft : trimLeft key with
  | nil => rfl
  | cons c rest => simpa [hleft] using hcomment

/-- A line with an equals sign assigns, unless it `Opens` and `Closes` with a bracket. -/
theorem sayings_assignment (hkey : IsKey key) (hline : 10 ∉ key ++ 61 :: rhs)
    (hheader : ¬(Opens key ∧ Closes rhs)) :
    sayings (key ++ 61 :: rhs) = [.assignment (trim key) (valueOf rhs)] := by
  rw [sayings_line hline, if_pos (speaks_assignment hkey), said_assignment_of hkey.equals hheader]

/-- Between brackets it is no assignment, but a header with a name of its own. -/
theorem sayings_bracketed (hkey : IsKey key) (hline : 10 ∉ key ++ 61 :: rhs)
    (hheader : Opens key ∧ Closes rhs) :
    ∃ name, sayings (key ++ 61 :: rhs) = [.header name] := by
  rw [sayings_line hline, if_pos (speaks_assignment hkey), said,
    if_pos (isHeader_assignment.mpr hheader)]
  exact ⟨_, rfl⟩

theorem Spells.valueOf_eq (h : Spells rhs value) : valueOf rhs = value := by
  apply valueOf_of_denotes
  cases h with
  | quoted hpad hvalue hpad' =>
    rw [Bytes.trim_append_cons (by decide), Bytes.trimLeft_of_blank hpad,
      Bytes.trimRight_append_cons (by decide)]
    exact .quoted hvalue
  | plain hhash hquote =>
    have hhead : (trim rhs).head? ≠ some 34 :=
      fun h => hquote (Bytes.mem_of_mem_trim (List.mem_of_mem_head? h))
    have hplain : Denotes (trim rhs) (trim (trim rhs)) :=
      .plain (fun h => hhash (Bytes.mem_of_mem_trim h)) (.inl hhead)
    rwa [Bytes.trim_trim] at hplain

/-- What `Spells` a value does so with a comment behind it: a quoted value ends before the comment,
and one without quotes at its number sign. -/
theorem Spells.remark (h : Spells rhs value) (r : Remark) : valueOf (rhs ++ r.bytes) = value := by
  apply valueOf_of_denotes
  cases h with
  | quoted hpad hvalue hpad' =>
    rw [List.append_assoc, List.cons_append, List.append_assoc, List.cons_append,
      Bytes.trim_append_cons (by decide), Bytes.trimLeft_of_blank hpad,
      Bytes.trimRight_append_cons (by decide)]
    exact .quoted hvalue
  | plain hhash hquote =>
    -- the space before the comment goes with the value; it brings neither a quote nor a number sign
    have hshown {c : UInt8} (hspace : Bytes.isSpace c = false) (hc : c ∉ rhs) :
        c ∉ trimLeft (rhs ++ r.pad) := by
      intro h
      rcases List.mem_append.mp (Bytes.mem_of_mem_trimLeft h) with hmem | hmem
      · exact hc hmem
      · rw [r.blank c hmem] at hspace
        cases hspace
    have hhead : (trimLeft (rhs ++ r.pad) ++ 35 :: trimRight r.comment).head? ≠ some 34 := by
      rw [List.head?_append]
      cases hleft : (trimLeft (rhs ++ r.pad)).head? with
      | none => simp
      | some c =>
        rintro ⟨⟩
        exact hshown (by decide) hquote (List.mem_of_mem_head? hleft)
    have hvalue : trim (trimLeft (rhs ++ r.pad)) = trim rhs := by
      rw [Bytes.trim_trimLeft, Bytes.trim_append_blank rhs r.blank]
    rw [Remark.bytes, ← List.append_assoc, Bytes.trim_append_cons (by decide), ← hvalue]
    exact .commented (hshown (by decide) hhash) hhead

end

/-! ### Statements and headers -/

section
variable {line name : Bytes}

theorem sayings_blank {pad : Bytes} (hpad : Blank pad) (hline : 10 ∉ pad) : sayings pad = [] := by
  have htrim : trim pad = [] := by
    rw [trim, Bytes.trimLeft_of_blank hpad]
    rfl
  rw [sayings_line hline, htrim]
  rfl

theorem sayings_comment {pad body : Bytes} (hpad : Blank pad) (hline : 10 ∉ pad ++ 35 :: body) :
    sayings (pad ++ 35 :: body) = [] := by
  rw [sayings_line hline, Bytes.trim_append_cons (by decide), Bytes.trimLeft_of_blank hpad]
  rfl

/-- A comment behind a `Statement` changes nothing about what it says, unless it makes a header of
it. -/
theorem Statement.sayings_remark (h : Statement line) (hline : 10 ∉ line) {r : Remark}
    (hheader : ¬(Opens line ∧ Closes r.comment)) : sayings (line ++ r.bytes) = sayings line := by
  have hremark := r.not_mem_append hline
  cases h with
  | blank hpad =>
    have hpads : Blank (line ++ r.pad) :=
      fun c hc => (List.mem_append.mp hc).elim (hpad c) (r.blank c)
    rw [sayings_blank hpad hline]
    rw [Remark.bytes, ← List.append_assoc] at hremark ⊢
    exact sayings_comment hpads hremark
  | comment hpad =>
    rw [sayings_comment hpad hline]
    rw [List.append_assoc, List.cons_append] at hremark ⊢
    exact sayings_comment hpad hremark
  | assignment hkey hrhs hplain =>
    rw [opens_append_cons (by decide) (by decide)] at hheader
    rw [sayings_assignment hkey hline hplain, hrhs.valueOf_eq]
    rw [List.append_assoc, List.cons_append] at hremark ⊢
    rw [sayings_assignment hkey hremark (by rwa [closes_remark]), hrhs.remark]

theorem Header.sayings (h : Header name line) (hline : 10 ∉ line) :
    sayings line = [.header (trim name)] := by
  cases h with
  | mk hpad hname hpad' =>
    rw [sayings_line hline, Bytes.trim_append_cons (by decide), Bytes.trimLeft_of_blank hpad,
      Bytes.trimRight_append_cons (by decide), Bytes.trimRight_of_blank hpad']
    exact congrArg ([·]) (said_brackets name)

theorem Header.opens (h : Header name line) (rest : Bytes) : Opens (line ++ rest) := by
  cases h with
  | mk hpad hname hpad' =>
    rw [Opens, List.append_assoc, List.cons_append, Bytes.trimLeft_append_cons (by decide),
      Bytes.trimLeft_of_blank hpad]
    rfl

/-- A `Header` with a comment behind it is a header only if the comment ends with a bracket. -/
theorem Header.isHeader_remark (h : Header name line) (r : Remark) :
    isHeader (trim (line ++ r.bytes)) = true ↔ Closes r.comment := by
  rw [isHeader_trim, closes_remark, and_iff_right (h.opens r.bytes)]

/-- What is left of a `Header` with a comment behind it: the comment, number sign and all, is
between the brackets. -/
theorem Header.trim_remark (h : Header name line) (r : Remark) :
    ∃ between, trim (line ++ r.bytes) = 91 :: (between ++ 35 :: trimRight r.comment) := by
  cases h with
  | @mk pad _ pad' hpad hname hpad' =>
    have hsplit : pad ++ 91 :: (name ++ 93 :: pad') ++ r.bytes =
        pad ++ 91 :: ((name ++ 93 :: (pad' ++ r.pad)) ++ 35 :: r.comment) := by
      simp [Remark.bytes]
    refine ⟨name ++ 93 :: (pad' ++ r.pad), ?_⟩
    rw [hsplit, Bytes.trim_append_cons (by decide), Bytes.trimLeft_of_blank hpad,
      Bytes.trimRight_append_cons (by decide)]
    rfl

/-- The name that it says, if it says one, holds a number sign, and is not the name of
the header. -/
theorem Header.said_remark (h : Header name line) (r : Remark) :
    said (trim (line ++ r.bytes)) ≠ .header (trim name) := by
  intro hsaid
  obtain ⟨hheader, hname⟩ := said_eq_header.mp hsaid
  have hsome : trimRight r.comment ≠ [] := by
    have hcloses := (h.isHeader_remark r).mp hheader
    intro hnil
    rw [Closes, hnil] at hcloses
    cases hcloses
  obtain ⟨between, htrim⟩ := h.trim_remark r
  -- the brackets that are taken off stand around the number sign, so it stays in the name
  have hdrop : (between ++ 35 :: trimRight r.comment).dropLast = between ++
      35 :: (trimRight r.comment).dropLast := by
    rw [List.dropLast_append_of_ne_nil (List.cons_ne_nil _ _), List.dropLast_cons_of_ne_nil hsome]
  have hmem : (35 : UInt8) ∈ trim name := by
    rw [← hname, htrim, headerName, List.drop_one, List.tail_cons, hdrop,
      Bytes.trim_append_cons (by decide)]
    simp
  cases h with
  | mk hpad hplain hpad' => exact hplain (Bytes.mem_of_mem_trim hmem)

theorem Header.sayings_remark (h : Header name line) (hline : 10 ∉ line) (r : Remark) :
    Document.sayings (line ++ r.bytes) = [said (trim (line ++ r.bytes))] := by
  obtain ⟨between, htrim⟩ := h.trim_remark r
  rw [sayings_line (r.not_mem_append hline), htrim]
  rfl

end

/-! ## What a document answers -/

/-- Every query has the same answer, whichever section, key and default it is about. -/
structure Alike (d d' : Document) : Prop where
  has : ∀ name key, d.has name key = d'.has name key
  string : ∀ name key default, d.string name key default = d'.string name key default
  int : ∀ name key default, d.int name key default = d'.int name key default
  float : ∀ name key default, d.float name key default = d'.float name key default
  flag : ∀ name key default, d.flag name key default = d'.flag name key default

theorem Alike.refl (d : Document) : Alike d d :=
  ⟨fun _ _ => rfl, fun _ _ _ => rfl, fun _ _ _ => rfl, fun _ _ _ => rfl, fun _ _ _ => rfl⟩

/-- The text with a line between other lines, which say whatever they like. -/
def among (earlier : List Bytes) (line : Bytes) (later : List Bytes) : Bytes :=
  join [10] (earlier ++ line :: later)

theorem load_among (d : Document) (earlier : List Bytes) (line : Bytes) (later : List Bytes) :
    d.load (among earlier line later) =
      ((earlier.flatMap sayings ++ (sayings line ++ later.flatMap sayings)).foldl readLine
        (empty, [])).1 := by
  rw [load_of_sayings, among, sayings_join, List.flatMap_append, List.flatMap_cons]

theorem get?_readLine_assignment (state : Document × Bytes) (assigned value name key : Bytes) :
    (readLine state (.assignment assigned value)).1.get? name key =
      if name = state.2 ∧ key = assigned then some value else state.1.get? name key :=
  get?_assign ..

/-- Between the header of another section and an assignment, the header of a section is told from
all else. -/
theorem header_told {line line' name : Bytes} {other : Line} (hline : sayings line = [.header name])
    (hline' : sayings line' = [other]) (hother : other ≠ .header name) :
    ∃ earlier later, ¬Alike (empty.load (among earlier line' later))
      (empty.load (among earlier line later)) := by
  -- any name will do for the other section as long as it is another one
  obtain ⟨before, opened, hbefore, hopened⟩ : ∃ before opened, sayings before = [.header opened] ∧
    opened ≠ name := by
    by_cases hname : name = text "a"
    · exact ⟨text "[b]", text "b", rfl, by rw [hname]; decide⟩
    · exact ⟨text "[a]", text "a", rfl, Ne.symm hname⟩
  have hafter : sayings (text "k = 1") = [.assignment (text "k") (text "1")] := rfl
  have hload (line : Bytes) (said : Line) (hsaid : sayings line = [said]) :
      empty.load (among [before] line [text "k = 1"]) =
        (readLine (readLine (empty.openSection opened, opened) said)
          (.assignment (text "k") (text "1"))).1 := by
    rw [load_among, hsaid, List.flatMap_singleton, List.flatMap_singleton, hbefore, hafter]
    rfl
  refine ⟨[before], [text "k = 1"], fun halike => ?_⟩
  have hhas := halike.has name (text "k")
  have hempty (key : Bytes) : (empty.openSection opened).get? name key = none := get?_openSection ..
  have hpresent : (empty.load (among [before] line [text "k = 1"])).get? name (text "k") =
      some (text "1") := by
    rw [hload line _ hline, get?_readLine_assignment]
    exact if_pos ⟨rfl, rfl⟩
  -- whatever else the line says, the section that is open after it is another one
  have habsent :
      (empty.load (among [before] line' [text "k = 1"])).get? name (text "k") = none := by
    rw [hload line' _ hline', get?_readLine_assignment]
    cases other with
    | idle => rw [if_neg fun h => hopened h.1.symm, readLine, hempty]
    | header n =>
      have hn : name ≠ n := fun h => hother (by rw [h])
      rw [if_neg fun h => hn h.1, readLine, get?_openSection, hempty]
    | assignment k v =>
      rw [if_neg fun h => hopened h.1.symm, get?_readLine_assignment, if_neg fun h =>
        hopened h.1.symm, hempty]
  rw [has, has, hpresent, habsent] at hhas
  cases hhas

/-- An assignment that turns into a header is not made, and a query for its key tells the
difference. -/
theorem Statement.told {line : Bytes} (h : Statement line) (hline : 10 ∉ line) {r : Remark}
    (hopens : Opens line) (hcloses : Closes r.comment) :
    ¬Alike (empty.load (among [] (line ++ r.bytes) [])) (empty.load (among [] line [])) := by
  have hremark := r.not_mem_append hline
  cases h with
  | blank hpad =>
    -- a line that opens with a bracket has a first byte that is not white space
    rw [Opens, Bytes.trimLeft_of_blank hpad] at hopens
    cases hopens
  | comment hpad =>
    rw [opens_append_cons (by decide) (by decide), Opens, Bytes.trimLeft_of_blank hpad] at hopens
    cases hopens
  | @assignment key rhs value hkey hrhs hplain =>
    rw [opens_append_cons (by decide) (by decide)] at hopens
    intro halike
    -- with the comment the line is a header, so the key is missing; without it the key is there
    have hhas := halike.has [] (trim key)
    obtain ⟨name, hheader⟩ : ∃ name, sayings (key ++ 61 :: rhs ++ r.bytes) = [.header name] := by
      rw [List.append_assoc, List.cons_append] at hremark ⊢
      exact sayings_bracketed hkey hremark ⟨hopens, (closes_remark rhs r).mpr hcloses⟩
    have habsent :
        (empty.load (among [] (key ++ 61 :: rhs ++ r.bytes) [])).get? [] (trim key) = none := by
      rw [load_among, hheader]
      exact get?_openSection ..
    have hpresent : (empty.load (among [] (key ++ 61 :: rhs) [])).get? [] (trim key) =
        some (valueOf rhs) := by
      rw [load_among, sayings_assignment hkey hline hplain]
      exact (get?_assign empty [] (trim key) (valueOf rhs) [] (trim key)).trans (if_pos ⟨rfl, rfl⟩)
    rw [has, has, habsent, hpresent] at hhas
    cases hhas

/-- **Comments at the end of a line.** Let a comment, `Remark`, be put behind a line of a
configuration: a `Statement`, which is blank, a comment or an assignment, or a `Header`. No query of
any text with this line notices (`Alike`) exactly if the line is no header and does not turn into
one, which only a line that begins with a bracket can, by a comment that ends with one. A header
with a comment behind it never says its name; if there is neither an equals sign in the line nor a
bracket at the end of the comment, it is passed over, and the lines behind it belong to the section
before. -/
theorem comment_transparent_iff {line : Bytes} (hline : 10 ∉ line)
    (hentry : Statement line ∨ ∃ name, Header name line) (r : Remark) :
    ((∀ (d : Document) earlier later,
        Alike (d.load (among earlier (line ++ r.bytes) later))
          (d.load (among earlier line later))) ↔
      Statement line ∧ ¬(Opens line ∧ Closes r.comment)) ∧
    (∀ name, Header name line → 61 ∉ line ++ r.bytes → ¬Closes r.comment →
      ∀ (d : Document) earlier later, d.load (among earlier (line ++ r.bytes) later) =
      d.load (join [10] (earlier ++ later))) := by
  constructor
  · constructor
    · intro halike
      rcases hentry with hstatement | ⟨name, hheader⟩
      · exact ⟨hstatement, fun h => hstatement.told hline h.1 h.2 (halike empty [] [])⟩
      · obtain ⟨earlier, later, htold⟩ :=
          header_told (hheader.sayings hline) (hheader.sayings_remark hline r)
            (hheader.said_remark r)
        exact absurd (halike empty earlier later) htold
    · rintro ⟨hstatement, hplain⟩ d earlier later
      rw [load_among, load_among, hstatement.sayings_remark hline hplain]
      exact .refl _
  · intro name hheader hequals hcloses d earlier later
    -- the line is neither a header nor an assignment any more, so it says nothing
    have hcut : Bytes.cut? 61 (trim (line ++ r.bytes)) = none :=
      Bytes.cut?_of_not_mem fun h => hequals (Bytes.mem_of_mem_trim h)
    have hidle : said (trim (line ++ r.bytes)) = .idle := by
      rw [said, if_neg (mt (hheader.isHeader_remark r).mp hcloses), hcut]
    rw [load_among, hheader.sayings_remark hline r, hidle, load_of_sayings, sayings_join,
      List.flatMap_append]
    simp only [List.foldl_append]
    rfl

/-- A comment behind the header of a section. -/
def tuned : Remark := ⟨text " ", text " tuned", by decide, by decide, by decide⟩

/-- A key is lost with the header of its section. -/
theorem remarked_header_is_lost :
    (ofBytes (among [] (text "[pool]") [text "min_workers = 3"])).int (text "pool")
      (text "min_workers") 1 = 3 ∧
      (ofBytes (among [] (text "[pool]" ++ tuned.bytes) [text "min_workers = 3"])).int (text "pool")
        (text "min_workers") 1 = 1 := by
  decide

/-- A comment of everything that means something elsewhere on a line. -/
def busyRemark : Remark := ⟨text "\t ", text " \"[x] = #", by decide, by decide, by decide⟩

/-- A value of everything that means something elsewhere on a line. -/
def busyLine : Bytes :=
  text " key " ++ 61 :: (text " " ++ 34 :: (text "a # [b] = c" ++ 34 :: text " "))

theorem comment_transparent_iff_busy :
    (Statement busyLine ∧
      ∀ (d : Document) earlier later,
        Alike (d.load (among earlier (busyLine ++ busyRemark.bytes) later))
        (d.load (among earlier busyLine later))) ∧
      Header (text "pool") (text "[pool]") ∧
      empty.load (among [] (text "[pool]" ++ tuned.bytes) [text "min_workers = 3"]) =
        empty.load (text "min_workers = 3") := by
  have hkey : IsKey (text " key ") := ⟨by decide, by decide⟩
  have hspells : Spells (text " " ++ 34 :: (text "a # [b] = c" ++ 34 :: text " "))
      (text "a # [b] = c") :=
    .quoted (by decide) (by decide) (by decide)
  have hstatement : Statement busyLine := .assignment hkey hspells (by decide)
  have hplain : ¬(Opens busyLine ∧ Closes busyRemark.comment) := by decide
  have hheader : Header (text "pool") ([] ++ 91 :: (text "pool" ++ 93 :: [])) :=
    .mk nofun (by decide) nofun
  refine ⟨⟨hstatement, (comment_transparent_iff (by decide) (.inl hstatement) busyRemark).1.mpr
    ⟨hstatement, hplain⟩⟩, hheader, ?_⟩
  exact (comment_transparent_iff (by decide) (.inr ⟨_, hheader⟩) tuned).2 _ hheader (by decide)
    (by decide) empty []
    [text "min_workers = 3"]

end Headroom.Document
