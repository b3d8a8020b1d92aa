import Headroom.CpuTime.Ticks
import Headroom.Proofs.Strings

/-!
# The fields of a thread's line

The line that describes a thread is read from its last closing bracket on, word by word. Here is
what such a line may look like, beside the reader.

* **`Bytes.Falls`**: how a text falls into words. `falls_iff` has that `words` finds them, and that
  every text falls into words in one way only.
* **`Ticks.Stat`**: a line as it is written, with a name that may hold anything, any white space
  between the fields and anything without a closing bracket after them.
* **`ofStat?_of_falls`**: what is read depends on the words after the last closing bracket alone.
* **`stat_line_reads_back`**: the counters of every such line are read back, and from a line with
  too few words nothing is read.
-/

namespace Headroom

/-! ## Words -/

namespace Bytes

variable {c : UInt8} {s w : Bytes} {ws : List Bytes}

/-- Something, without white space in it. It carries what `words_append` needs to find the word as a
whole. -/
structure IsWord (w : Bytes) : Prop where
  some : w ≠ []
  plain : ∀ c ∈ w, isSpace c = false

instance (w : Bytes) : Decidable (IsWord w) :=
  decidable_of_iff (w ≠ [] ∧ (w.all fun c => !isSpace c) = true) <| by
    rw [List.all_eq_true]
    simp only [Bool.not_eq_true']
    exact ⟨fun h => ⟨h.1, h.2⟩, fun h => ⟨h.some, h.plain⟩⟩

/-- What may follow a word: nothing, or white space first. -/
def Apart (s : Bytes) : Prop := ∀ c ∈ s.head?, isSpace c = true

/-- The words of a text: there is white space between any two of them, and nothing else beside them.
It says what the words are without a loop, and `falls_iff` says that the loop finds them. -/
inductive Falls : Bytes → List Bytes → Prop
  | nil : Falls [] []
  | space {c : UInt8} {s : Bytes} {ws : List Bytes} (hc : isSpace c = true) (hs : Falls s ws) :
      Falls (c :: s) ws
  | word {w s : Bytes} {ws : List Bytes} (hw : IsWord w) (hapart : Apart s) (hs : Falls s ws) :
      Falls (w ++ s) (w :: ws)

theorem words_cons_space (hc : isSpace c = true) (s : Bytes) : words (c :: s) = words s := by
  simp [words, hc]

/-- A word is found by `words` as a whole, if white space or nothing follows. -/
theorem words_append (hw : IsWord w) (hs : Apart s) : words (w ++ s) = w :: words s := by
  -- from the right, the bytes of a word are put before what has been read of it
  have hrun (plain : Bytes) (hplain : ∀ c ∈ plain, isSpace c = false) (word : Bytes)
      (rest : List Bytes) :
      plain.foldr (fun c (word, rest) =>
        if isSpace c then ([], if word.isEmpty then rest else word :: rest)
        else (c :: word, rest)) (word, rest) = (plain ++ word, rest) := by
    induction plain with
    | nil => rfl
    | cons c plain ih =>
      rw [List.foldr_cons, ih fun b hb => hplain b (List.mem_cons_of_mem c hb)]
      simp [hplain c List.mem_cons_self]
  unfold words
  dsimp only
  rw [List.foldr_append]
  cases s with
  | nil =>
    rw [List.foldr_nil, hrun w hw.plain]
    simp [hw.some]
  | cons c s =>
    have hc : isSpace c = true := hs c rfl
    simp only [List.foldr_cons, hc, if_true]
    rw [hrun w hw.plain]
    simp [hw.some]

theorem words_of_falls (h : Falls s ws) : words s = ws := by
  induction h with
  | nil => rfl
  | space hc _ ih => rw [words_cons_space hc, ih]
  | word hw hapart _ ih => rw [words_append hw hapart, ih]

/-- One more byte is white space, a word of its own, or the first byte of the first word. -/
theorem Falls.cons (c : UInt8) (h : Falls s ws) : ∃ ws', Falls (c :: s) ws' := by
  cases hc : isSpace c with
  | true => exact ⟨ws, .space hc h⟩
  | false =>
    have hone : IsWord [c] := ⟨List.cons_ne_nil c [], by simpa using hc⟩
    cases h with
    | nil => exact ⟨_, .word hone nofun .nil⟩
    | space hb hs => exact ⟨_, .word hone (by rintro _ ⟨⟩; exact hb) (.space hb hs)⟩
    | word hw hapart hs =>
      exact ⟨_, .word ⟨List.cons_ne_nil c _, List.forall_mem_cons.mpr ⟨hc, hw.plain⟩⟩ hapart hs⟩

theorem exists_falls (s : Bytes) : ∃ ws, Falls s ws := by
  induction s with
  | nil => exact ⟨[], .nil⟩
  | cons c s ih =>
    obtain ⟨ws, h⟩ := ih
    exact h.cons c

/-- Every text `Falls` into its `words`, and into nothing else. -/
theorem falls_iff : Falls s ws ↔ words s = ws := by
  refine ⟨words_of_falls, ?_⟩
  rintro rfl
  obtain ⟨ws, h⟩ := exists_falls s
  rwa [words_of_falls h]

theorem Falls.pad {pad : Bytes} (hpad : Blank pad) (h : Falls s ws) : Falls (pad ++ s) ws := by
  induction pad with
  | nil => exact h
  | cons c pad ih =>
    exact .space (hpad c List.mem_cons_self) (ih fun b hb => hpad b (List.mem_cons_of_mem c hb))

theorem isWord_ofNat (n : Nat) : IsWord (ofNat n) :=
  ⟨ofNat_ne_nil n, fun _ hc => isSpace_of_isDigit (isDigit_of_mem_ofNat hc)⟩

end Bytes

namespace Ticks

open Bytes (Apart Blank Falls IsWord)

/-! ## The reader -/

theorem afterLast?_append {sep : UInt8} (before : Bytes) {rest : Bytes} (h : sep ∉ rest) :
    afterLast? sep (before ++ sep :: rest) = some rest := by
  have hrest : ∀ c ∈ rest.reverse, (c != sep) = true := by
    intro c hc
    exact bne_iff_ne.mpr fun heq => h (heq ▸ List.mem_reverse.mp hc)
  have hreverse : (before ++ sep :: rest).reverse = rest.reverse ++ sep :: before.reverse := by simp
  unfold afterLast?
  rw [if_pos (by simp), hreverse, List.takeWhile_append_of_pos hrest,
    List.takeWhile_cons_of_neg (by simp), List.append_nil, List.reverse_reverse]

/-- A word of 64 bits in decimal digits is read back by `counter?`, up to the largest one. -/
theorem counter?_ofNat (n : UInt64) : counter? (Bytes.ofNat n.toNat) = some n := by
  have hdigit : ∀ c ∈ Bytes.ofNat n.toNat, Bytes.isDigit c = true :=
    fun _ => Bytes.isDigit_of_mem_ofNat
  have hnul : Bytes.untilNul (Bytes.ofNat n.toNat) = Bytes.ofNat n.toNat :=
    Bytes.before_of_not_mem fun h => absurd (hdigit 0 h) (by decide)
  have hvalue := Bytes.digitsValue_ofNat n.toNat
  have hfits : ¬UInt64.size ≤ n.toNat := Nat.not_le.mpr n.toNat_lt
  -- neither sign is a digit
  obtain ⟨c, ds, hcons⟩ := List.exists_cons_of_ne_nil (Bytes.ofNat_ne_nil n.toNat)
  rw [hcons] at hdigit hnul hvalue ⊢
  have hminus : c ≠ 45 := fun h => absurd (hdigit c List.mem_cons_self) (by rw [h]; decide)
  have hplus : c ≠ 43 := fun h => absurd (hdigit c List.mem_cons_self) (by rw [h]; decide)
  have hall : (c :: ds).all Bytes.isDigit = true := List.all_eq_true.mpr hdigit
  unfold counter?
  rw [hnul]
  simp [hminus, hplus, hall, hvalue, hfits]

/-- What `ofStat?` reads of a line, as one expression: two words at fixed places after the last
closing bracket. -/
theorem ofStat?_eq (stat : Bytes) :
    ofStat? stat = (afterLast? 41 stat).bind fun rest =>
      ((Bytes.words rest)[11]?.bind counter?).bind fun user =>
        ((Bytes.words rest)[12]?.bind counter?).map fun system => ⟨user, system⟩ := by
  unfold ofStat?
  simp only [Option.bind_eq_bind, Option.bind_assoc, Option.map_eq_bind]
  rfl

/-- What `ofStat?` reads depends on the words after the last closing bracket alone. -/
theorem ofStat?_of_falls (before : Bytes) {rest : Bytes} {ws : List Bytes} (hrest : 41 ∉ rest)
    (h : Falls rest ws) :
    ofStat? (before ++ 41 :: rest) =
      (ws[11]?.bind counter?).bind fun user => (ws[12]?.bind counter?).map fun system =>
        ⟨user, system⟩ := by
  rw [ofStat?_eq, afterLast?_append before hrest, Option.bind_some, Bytes.falls_iff.mp h]

/-! ## Lines -/

/-- White space between two fields: some, and nothing else. -/
structure Gap where
  bytes : Bytes
  some : bytes ≠ []
  blank : Blank bytes

/-- A field with the white space before it. Its token is a word without a closing bracket, so that
the name is ended by the last bracket of the line. -/
structure Field where
  gap : Gap
  token : Bytes
  word : IsWord token
  bracket : 41 ∉ token

def Field.bytes (f : Field) : Bytes := f.gap.bytes ++ f.token

/-- A counter in decimal digits. -/
def Field.ofCounter (gap : Gap) (n : UInt64) : Field where
  gap
  token := Bytes.ofNat n.toNat
  word := Bytes.isWord_ofNat n.toNat
  bracket := fun h => absurd (Bytes.isDigit_of_mem_ofNat h) (by decide)

/-- A thread's line: something, the name in brackets, eleven fields, the two counters, and something
more. Its fields carry what makes it well formed. -/
structure Stat where
  lead : Bytes
  name : Bytes
  fields : List Field
  eleven : fields.length = 11
  userGap : Gap
  user : UInt64
  systemGap : Gap
  system : UInt64
  tail : Bytes
  tail_apart : Apart tail
  tail_bracket : 41 ∉ tail

namespace Stat

/-- The fields after the name, up to the counters. -/
def counted (l : Stat) : List Field :=
  l.fields ++ [.ofCounter l.userGap l.user, .ofCounter l.systemGap l.system]

def bytes (l : Stat) : Bytes :=
  l.lead ++ 40 :: (l.name ++ 41 :: (l.counted.flatMap Field.bytes ++ l.tail))

end Stat

section
variable {rest : Bytes} {ws : List Bytes}

theorem apart_fields (fs : List Field) (hrest : Apart rest) :
    Apart (fs.flatMap Field.bytes ++ rest) := by
  cases fs with
  | nil => exact hrest
  | cons f fs =>
    obtain ⟨c, pad, hgap⟩ := List.exists_cons_of_ne_nil f.gap.some
    have hc : Bytes.isSpace c = true := f.gap.blank c (hgap ▸ List.mem_cons_self)
    rw [List.flatMap_cons, Field.bytes, hgap]
    rintro _ ⟨⟩
    exact hc

theorem falls_fields (fs : List Field) (hapart : Apart rest) (hrest : Falls rest ws) :
    Falls (fs.flatMap Field.bytes ++ rest) (fs.map Field.token ++ ws) := by
  induction fs with
  | nil => exact hrest
  | cons f fs ih =>
    rw [List.flatMap_cons, Field.bytes, List.append_assoc, List.append_assoc]
    exact (Falls.word f.word (apart_fields fs hapart) ih).pad f.gap.blank

theorem bracket_fields (fs : List Field) (hrest : 41 ∉ rest) :
    41 ∉ fs.flatMap Field.bytes ++ rest := by
  rw [List.mem_append, not_or]
  refine ⟨fun h => ?_, hrest⟩
  obtain ⟨f, -, hf⟩ := List.mem_flatMap.mp h
  rcases List.mem_append.mp hf with hgap | htoken
  · exact absurd (f.gap.blank 41 hgap) (by decide)
  · exact f.bracket htoken

end

/-- The counters are the twelfth and the thirteenth word after the name, whatever the name has in
it. -/
theorem ofStat?_bytes (l : Stat) : ofStat? l.bytes = some ⟨l.user, l.system⟩ := by
  have hbracket : 41 ∉ l.counted.flatMap Field.bytes ++ l.tail :=
    bracket_fields l.counted l.tail_bracket
  have hfalls := falls_fields l.counted l.tail_apart (Bytes.falls_iff.mpr rfl)
  have hsplit : l.bytes = (l.lead ++ 40 :: l.name) ++
      41 :: (l.counted.flatMap Field.bytes ++ l.tail) := by
    simp [Stat.bytes]
  have heleven : (l.fields.map Field.token).length = 11 := by rw [List.length_map, l.eleven]
  have hword (i : Nat) : (l.counted.map Field.token ++ Bytes.words l.tail)[11 + i]? =
      (Bytes.ofNat l.user.toNat :: Bytes.ofNat l.system.toNat :: Bytes.words l.tail)[i]? := by
    rw [Stat.counted, List.map_append, List.append_assoc, List.getElem?_append_right (by omega),
      heleven, Nat.add_sub_cancel_left]
    rfl
  rw [hsplit, ofStat?_of_falls _ hbracket hfalls, hword 0, hword 1]
  show ((counter? (Bytes.ofNat l.user.toNat)).bind fun user =>
    (counter? (Bytes.ofNat l.system.toNat)).map fun system => (⟨user, system⟩ : Ticks)) = _
  rw [counter?_ofNat, counter?_ofNat]
  rfl

/-- **A thread's line is read back** by `ofStat?`. Whatever stands before the name and in it,
brackets, digits and line breaks among it, whatever the eleven fields and the text at the end are,
and whatever white space is between them: the two counters are read as they were written. From a
line without a closing bracket nothing is read, and neither from one with fewer than thirteen words
(`Falls`) after its last closing bracket. -/
theorem stat_line_reads_back :
    (∀ l : Stat, ofStat? l.bytes = some ⟨l.user, l.system⟩) ∧
      (∀ stat, 41 ∉ stat → ofStat? stat = none) ∧
      (∀ before rest ws, 41 ∉ rest → Falls rest ws → ws.length < 13 →
        ofStat? (before ++ 41 :: rest) = none) := by
  refine ⟨ofStat?_bytes, fun stat hnone => ?_, fun before rest ws hrest hfalls hshort => ?_⟩
  · have habsent : afterLast? 41 stat = none := if_neg (by simpa using hnone)
    rw [ofStat?_eq, habsent]
    rfl
  · rw [ofStat?_of_falls before hrest hfalls, List.getElem?_eq_none (show ws.length ≤ 12 by omega)]
    exact Option.bind_eq_none_iff.mpr fun _ _ => rfl

/-- A name that looks like the end of another line, with counters of its own, and the largest
counter that there is. -/
def imitation : Stat where
  lead := text "7 (a) "
  name := text "b) S 1 7 7 0 -1 0 0 0 0 0 250 50 0\n(c"
  fields := List.replicate 11 ⟨⟨text " \t", by decide, by decide⟩, text "-1(", by decide, by decide⟩
  eleven := List.length_replicate
  userGap := ⟨text "  ", by decide, by decide⟩
  user := 18446744073709551615
  systemGap := ⟨text "\n", by decide, by decide⟩
  system := 0
  tail := text " 20 (x\n"
  tail_apart := by rintro _ ⟨⟩; decide
  tail_bracket := by decide

theorem stat_line_reads_back_imitation :
    ofStat? imitation.bytes = some ⟨18446744073709551615, 0⟩ ∧ ofStat? (text "no bracket") = none ∧
      ofStat? (text "12 (x) S 1 2 3") = none := by
  obtain ⟨hread, hnone, hshort⟩ := stat_line_reads_back
  refine ⟨hread imitation, hnone _ (by decide), ?_⟩
  exact hshort (text "12 (x") (text " S 1 2 3") _ (by decide) (Bytes.falls_iff.mpr rfl) (by decide)

end Ticks

end Headroom
