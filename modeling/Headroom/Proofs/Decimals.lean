import Headroom.Proofs.Comments
import Headroom.Proofs.Resolution
import Mathlib.Data.Nat.Digits.Defs

/-!
# Integers in documents and in variables

An integer setting may be written in the document or in its variable, and each place has a reader of
its own. On the integers that both notations have, the two are one.

* **`Decimal`**: an optional minus sign and decimal digits, as many as one likes. Its value is that
  of its digits.
* **`lenientInt?_bytes`**, **`plainInt?_bytes`**: both readers accept a decimal exactly if its value
  is in range.
* **`Document.Gains`**: two documents that are alike but for one key, which only the second one has.
  Reading goes on so (`gains_readLine`, `gains_readLines`) unless a line gives the key to the first
  one too.
* **`document_and_variable_agree`**: a decimal in the document and in the variable lead to the same
  settings, or to the same problem.
-/

namespace Headroom

/-! ## Decimals -/

/-- An integer in decimal notation. Zeros may come first, and there may be a minus sign before a
zero. -/
structure Decimal where
  negative : Bool
  digits : List (Fin 10)
  digits_some : digits ≠ []

namespace Decimal

def digit (d : Fin 10) : UInt8 := 48 + UInt8.ofNat d

def bytes (w : Decimal) : Bytes := (if w.negative then [45] else []) ++ w.digits.map digit

/-- The number that is denoted. The last digit counts once, the one before it ten times, and
so on. -/
def value (w : Decimal) : Int :=
  let n : Nat := Nat.ofDigits 10 (w.digits.reverse.map Fin.val)
  if w.negative then -n else n

/-- The number that is denoted if it fits in 32 bits, and otherwise a default. -/
def within (w : Decimal) (default : Int) : Int :=
  if -2147483648 ≤ w.value ∧ w.value ≤ 2147483647 then w.value else default

theorem isDigit_digit (d : Fin 10) : Bytes.isDigit (digit d) = true := by
  revert d
  decide

theorem digitsValue_digits (ds : List (Fin 10)) :
    Bytes.digitsValue (ds.map digit) = Nat.ofDigits 10 (ds.reverse.map Fin.val) := by
  have hdigit : ∀ d, Bytes.digitValue (digit d) = d := by decide
  induction ds using List.reverseRecOn with
  | nil => rfl
  | append_singleton ds d ih =>
    unfold Bytes.digitsValue at ih ⊢
    rw [List.map_append, List.foldl_append, ih, List.reverse_append, List.map_append,
      List.map_singleton]
    show 10 * _ + Bytes.digitValue (digit d) = Nat.ofDigits 10 (d.val :: ds.reverse.map Fin.val)
    rw [hdigit, Nat.ofDigits_cons, Nat.add_comm]

/-- The bytes of a `Decimal` begin with a minus sign or a digit, and digits are all that follows. -/
theorem bytes_cases (w : Decimal) :
    ∃ d ds, w.digits.map digit = d :: ds ∧ (∀ c ∈ d :: ds, Bytes.isDigit c = true) ∧
      w.bytes = if w.negative then 45 :: d :: ds else d :: ds := by
  obtain ⟨d, ds, hdigits⟩ := List.exists_cons_of_ne_nil w.digits_some
  refine ⟨digit d, ds.map digit, by rw [hdigits, List.map_cons], ?_, ?_⟩
  · intro c hc
    rw [← List.map_cons] at hc
    obtain ⟨e, -, rfl⟩ := List.mem_map.mp hc
    exact isDigit_digit e
  · unfold bytes
    rw [hdigits]
    cases w.negative <;> rfl

theorem sign_bytes (plus : Bool) (w : Decimal) :
    Reader.sign plus w.bytes = (w.negative, w.digits.map digit) := by
  obtain ⟨d, ds, hdigits, hdigit, hbytes⟩ := w.bytes_cases
  rw [hbytes, hdigits]
  cases w.negative with
  | true => rfl
  | false =>
    have hminus : d ≠ 45 := fun h => absurd (hdigit d List.mem_cons_self) (by rw [h]; decide)
    have hplus : d ≠ 43 := fun h => absurd (hdigit d List.mem_cons_self) (by rw [h]; decide)
    simp [Reader.sign, hminus, hplus]

theorem mem_bytes {w : Decimal} {c : UInt8} (h : c ∈ w.bytes) :
    c = 45 ∨ Bytes.isDigit c = true := by
  rcases List.mem_append.mp h with hsign | hdigit
  · left
    cases hneg : w.negative with
    | true => simpa [hneg] using hsign
    | false => simp [hneg] at hsign
  · obtain ⟨d, -, rfl⟩ := List.mem_map.mp hdigit
    exact .inr (isDigit_digit d)

theorem isSpace_of_mem_bytes {w : Decimal} {c : UInt8} (h : c ∈ w.bytes) :
    Bytes.isSpace c = false := by
  rcases mem_bytes h with rfl | hdigit
  · decide
  · exact Bytes.isSpace_of_isDigit hdigit

theorem trimLeft_bytes (w : Decimal) : Bytes.trimLeft w.bytes = w.bytes := by
  unfold Bytes.trimLeft
  rw [List.dropWhile_eq_self_iff]
  intro h
  simp [isSpace_of_mem_bytes (List.getElem_mem h)]

theorem trim_bytes (w : Decimal) : Bytes.trim w.bytes = w.bytes := by
  apply Bytes.trim_of_tidy
  simp only [Bytes.tidy, Bool.and_eq_true, Option.all_eq_true, Bool.not_eq_true']
  exact ⟨fun c hc => isSpace_of_mem_bytes (List.mem_of_mem_head? hc),
    fun c hc => isSpace_of_mem_bytes (List.mem_of_getLast? hc)⟩

/-- The reader of documents, `lenientInt?`, sees the sign and the digits; what is left is whether
the number fits in 32 bits. -/
theorem lenientInt?_bytes (w : Decimal) :
    Reader.lenientInt? w.bytes = if Reader.fits32 w.value then some w.value else none := by
  have htake : (w.digits.map digit).takeWhile Bytes.isDigit = w.digits.map digit :=
    List.takeWhile_eq_self_iff.mpr (by simp [isDigit_digit])
  have hdrop : (w.digits.map digit).dropWhile Bytes.isDigit = [] :=
    List.dropWhile_eq_nil_iff.mpr (by simp [isDigit_digit])
  have hleading : Reader.leadingInt? w.bytes = some (w.value, []) := by
    unfold Reader.leadingInt?
    rw [trimLeft_bytes, sign_bytes]
    simp only [htake, hdrop, digitsValue_digits]
    rw [if_neg (by simp [w.digits_some])]
    rfl
  unfold Reader.lenientInt?
  rw [hleading]
  rfl

/-- The reader of variables, `plainInt?`, takes a decimal as well, and for the same number. -/
theorem plainInt?_bytes (w : Decimal) :
    Reader.plainInt? w.bytes = if Reader.fits32 w.value then some w.value else none := by
  have hall : (w.digits.map digit).all Bytes.isDigit = true := by
    simp [isDigit_digit]
  have hsome : (w.digits.map digit).isEmpty = false := by
    simp [w.digits_some]
  unfold Reader.plainInt?
  rw [sign_bytes]
  simp only [hall, hsome, digitsValue_digits]
  rfl

theorem getD_fits32 (w : Decimal) (default : Int) :
    (if Reader.fits32 w.value then some w.value else none).getD default = w.within default := by
  unfold within
  by_cases h : -2147483648 ≤ w.value ∧ w.value ≤ 2147483647
  · have hfits : Reader.fits32 w.value = true := by
      simp only [Reader.fits32, Bool.and_eq_true, decide_eq_true_eq]
      omega
    rw [if_pos h, if_pos hfits]
    rfl
  · have hfits : ¬Reader.fits32 w.value = true := by
      simp only [Reader.fits32, Bool.and_eq_true, decide_eq_true_eq]
      omega
    rw [if_neg h, if_neg hfits]
    rfl

end Decimal

/-! ## A key that one document has more than another -/

namespace Document

variable {state state' : Document × Bytes} {name key value : Bytes}

/-- Two documents that are being read, with the same section open. The second one has a key that the
first one has not; otherwise they are alike. -/
structure Gains (state state' : Document × Bytes) (name key value : Bytes) : Prop where
  opened : state'.2 = state.2
  absent : state.1.has name key = false
  get? : ∀ n k, state'.1.get? n k = if n = name ∧ k = key then some value else state.1.get? n k

theorem has_readLine (h : state.1.has name key = true) (line : Line) :
    (readLine state line).1.has name key = true := by
  unfold has at h ⊢
  cases line with
  | idle => exact h
  | header opened => rwa [readLine, get?_openSection]
  | assignment k v =>
    rw [get?_readLine_assignment]
    split
    · rfl
    · exact h

theorem has_readLines (lines : List Line) (h : state.1.has name key = true) :
    (lines.foldl readLine state).1.has name key = true := by
  induction lines generalizing state with
  | nil => exact h
  | cons line lines ih => exact ih (has_readLine h line)

/-- One line keeps the difference `Gains`, or it gives the key to the first document. -/
theorem gains_readLine (h : Gains state state' name key value) (line : Line) :
    (readLine state line).1.has name key = true ∨
      Gains (readLine state line) (readLine state' line) name key value := by
  cases line with
  | idle => exact .inr h
  | header n =>
    refine .inr ⟨rfl, ?_, fun m k => ?_⟩
    · rw [has, readLine, get?_openSection]
      exact h.absent
    · rw [readLine, readLine, get?_openSection, get?_openSection]
      exact h.get? m k
  | assignment k v =>
    by_cases hsame : name = state.2 ∧ key = k
    · -- the line assigns this very key
      left
      rw [has, get?_readLine_assignment, if_pos hsame]
      rfl
    · -- another key or section: both documents take the line in the same way
      refine .inr ⟨h.opened, ?_, fun m j => ?_⟩
      · rw [has, get?_readLine_assignment, if_neg hsame]
        exact h.absent
      · rw [get?_readLine_assignment, get?_readLine_assignment, h.opened]
        by_cases hhere : m = state.2 ∧ j = k
        · rw [if_pos hhere, if_pos hhere, if_neg]
          rintro ⟨rfl, rfl⟩
          exact hsame hhere
        · rw [if_neg hhere, if_neg hhere]
          exact h.get? m j

/-- A first document that is without the key after all lines was so all the time, so the difference
stays. -/
theorem gains_readLines (lines : List Line) (h : Gains state state' name key value)
    (habsent : (lines.foldl readLine state).1.has name key = false) :
    Gains (lines.foldl readLine state) (lines.foldl readLine state') name key value := by
  induction lines generalizing state state' with
  | nil => exact h
  | cons line lines ih =>
    rcases gains_readLine h line with hpresent | hgains
    · rw [List.foldl_cons, has_readLines lines hpresent] at habsent
      cases habsent
    · exact ih hgains habsent

/-- A line that assigns a key to the section that is open makes the difference `Gains`. -/
theorem gains_assignment (habsent : state.1.has name key = false) (hopened : state.2 = name) :
    Gains state (readLine state (.assignment key value)) name key value := by
  refine ⟨rfl, habsent, fun n k => ?_⟩
  rw [get?_readLine_assignment, hopened]

/-- The text with one more line, which assigns a key that the text does not have: the key has that
value, and all other keys have theirs. -/
theorem get?_among {earlier later : List Bytes} {line : Bytes}
    (hline : sayings line = [.assignment key value])
    (hopened : sectionAfter (meaningful (Bytes.join [10] earlier)) = name)
    (habsent : (ofBytes (Bytes.join [10] (earlier ++ later))).has name key = false) (n k : Bytes) :
    (ofBytes (among earlier line later)).get? n k =
      if n = name ∧ k = key then some value
      else (ofBytes (Bytes.join [10] (earlier ++ later))).get? n k := by
  -- both documents are read from the same state on, one of them after one line more
  have hload : ofBytes (Bytes.join [10] (earlier ++ later)) =
      ((later.flatMap sayings).foldl readLine
        ((earlier.flatMap sayings).foldl readLine (empty, []))).1 := by
    rw [ofBytes, load_of_sayings, sayings_join, List.flatMap_append, List.foldl_append]
  have hmore : ofBytes (among earlier line later) =
      ((later.flatMap sayings).foldl readLine
        (readLine ((earlier.flatMap sayings).foldl readLine (empty, []))
          (.assignment key value))).1 := by
    rw [ofBytes, load_among, hline, List.foldl_append, List.foldl_append]
    rfl
  have hsection : ((earlier.flatMap sayings).foldl readLine (empty, [])).2 = name := by
    rw [← hopened, ← readAll_section, ← sayings_join, sayings, List.foldl_map]
    rfl
  rw [hload] at habsent
  -- later lines do not take a key away, so it was not there before either
  have hbefore : ((earlier.flatMap sayings).foldl readLine (empty, [])).1.has name key = false := by
    rw [← Bool.not_eq_true] at habsent ⊢
    exact fun h => habsent (has_readLines _ h)
  rw [hload, hmore]
  exact (gains_readLines _ (gains_assignment hbefore hsection) habsent).get? n k

end Document

/-! ## Settings -/

namespace Settings

open Document (among meaningful sayings sectionAfter)

variable {k : Key} {default : Int} {document : Document} {env env' : Environment}

/-- The line that writes a decimal for a setting, as a user would: name, equals sign, digits. -/
def Key.line (k : Key) (w : Decimal) : Bytes := k.name ++ text " = " ++ w.bytes

/-- The line that writes a decimal for a setting assigns it under the name of the setting. -/
theorem sayings_line_of_key (hk : k ∈ Key.all) (w : Decimal) :
    sayings (k.line w) = [.assignment k.name w.bytes] := by
  -- the keys are fixed, so all that depends on the key alone can be computed
  have hkeys : ∀ k ∈ Key.all, 10 ∉ k.name ∧ 61 ∉ k.name ++ [32] ∧
      (Bytes.trimLeft (k.name ++ [32])).head? ≠ some 35 ∧
        ¬Document.Opens (k.name ++ [32]) ∧ Bytes.trim (k.name ++ [32]) = k.name := by
    decide
  obtain ⟨hnewline, hequals, hcomment, hopens, hname⟩ := hkeys k hk
  have hnot {c : UInt8} (hminus : c ≠ 45) (hdigit : Bytes.isDigit c = false) : c ∉ w.bytes := by
    intro h
    rcases Decimal.mem_bytes h with heq | hc
    · exact hminus heq
    · rw [hdigit] at hc
      cases hc
  have hspells : Document.Spells (32 :: w.bytes) (Bytes.trim (32 :: w.bytes)) := by
    refine .plain ?_ ?_
    · simpa using hnot (by decide) (by decide)
    · simpa using hnot (by decide) (by decide)
  have htrim : Bytes.trim (32 :: w.bytes) = w.bytes := by
    rw [Bytes.trim_cons_space (by decide)]
    exact w.trim_bytes
  have hsplit : k.line w = (k.name ++ [32]) ++ 61 :: (32 :: w.bytes) := by
    rw [Key.line, show text " = " = [32, 61, 32] from rfl]
    simp
  have hline : 10 ∉ (k.name ++ [32]) ++ 61 :: (32 :: w.bytes) := by
    simpa [hnewline] using hnot (by decide) (by decide)
  rw [hsplit]
  rw [Document.sayings_assignment ⟨hequals, hcomment⟩ hline fun h => hopens h.1, hname,
    hspells.valueOf_eq, htrim]

/-- A `Decimal` in the document is used if it fits in 32 bits; otherwise the default is. -/
theorem int_of_document (w : Decimal) (h : document.get? k.group k.name = some w.bytes) :
    Lookup.int ⟨document, env⟩ k default = w.within default := by
  have hhas : document.has k.group k.name = true := by
    rw [Document.has, h]
    rfl
  rw [Lookup.int, if_pos hhas, Document.int, h, ← w.getD_fits32, ← w.lenientInt?_bytes]
  rfl

/-- A `Decimal` in the variable is used on the same condition, where the document does not have the
key. -/
theorem int_of_variable (w : Decimal) (habsent : document.has k.group k.name = false)
    (hset : env.lookup? k.var = some w.bytes) :
    Lookup.int ⟨document, env⟩ k default = w.within default := by
  rw [Lookup.int, if_neg (by rw [habsent]; decide), Environment.int, hset, ← w.getD_fits32,
    ← w.plainInt?_bytes]
  rfl

theorem key_eq_of_place {k' : Key} (hk : k ∈ Key.all) (hk' : k' ∈ Key.all)
    (hgroup : k'.group = k.group) (hname : k'.name = k.name) : k' = k := by
  have hnodup : (Key.all.map fun k => (k.group, k.name)).Nodup := by decide
  exact List.inj_on_of_nodup_map hnodup hk' hk (Prod.ext hgroup hname)

theorem form_unique {hardware : Nat} {f f' : Form} (h : (k, f) ∈ table hardware)
    (h' : (k, f') ∈ table hardware) :
    f = f' := by
  have hnodup : ((table hardware).map Prod.fst).Nodup := keys_table hardware ▸ nodup_keys
  exact Option.some.inj ((lookup_of_mem hnodup h).symm.trans (lookup_of_mem hnodup h'))

/-- **A decimal in the document and in the variable.** Take an integer setting, a text that has the
section of the setting but not its key, and two environments that differ in the variable of the
setting at most. The decimal is either written in the document, in this section, or it is the value
of the variable in the second environment, in either spelling. Both lead to the same settings or to
the same problem, and in both the setting is `Decimal.within` of its default: the number that the
decimal denotes, if it fits in 32 bits, and the default otherwise. -/
theorem document_and_variable_agree {hardware : Nat} (hk : (k, .int default) ∈ table hardware)
    (w : Decimal) {earlier later : List Bytes}
    (hsection : sectionAfter (meaningful (Bytes.join [10] earlier)) = k.group)
    (habsent : (Document.ofBytes (Bytes.join [10] (earlier ++ later))).has k.group k.name = false)
    (hset : env'.lookup? k.var = some w.bytes)
    (hothers : ∀ k' ∈ Key.all, k' ≠ k → env.lookup? k'.var = env'.lookup? k'.var) :
    ofBytes env hardware (among earlier (k.line w) later) =
      ofBytes env' hardware (Bytes.join [10] (earlier ++ later)) ∧
      Lookup.int ⟨.ofBytes (among earlier (k.line w) later), env⟩ k default = w.within default ∧
      Lookup.int ⟨.ofBytes (Bytes.join [10] (earlier ++ later)), env'⟩ k default =
      w.within default ∧ ∀ s, ofBytes env hardware (among earlier (k.line w) later) = .ok s →
        s.held.lookup k = some (.int (w.within default)) := by
  have hall {k : Key} {f : Form} (h : (k, f) ∈ table hardware) : k ∈ Key.all :=
    keys_table hardware ▸ List.mem_map_of_mem h
  have hget := Document.get?_among (sayings_line_of_key (hall hk) w) hsection habsent
  have hpresent :
      (Document.ofBytes (among earlier (k.line w) later)).get? k.group k.name = some w.bytes := by
    rw [hget, if_pos ⟨rfl, rfl⟩]
  have hwritten :
      Lookup.int ⟨.ofBytes (among earlier (k.line w) later), env⟩ k default = w.within default :=
    int_of_document w hpresent
  have hvariable : Lookup.int ⟨.ofBytes (Bytes.join [10] (earlier ++ later)), env'⟩ k default =
      w.within default :=
    int_of_variable w habsent hset
  -- settings are resolved from the values alone, and every other setting has its value from where
  -- it had it before
  refine ⟨resolve_congr (List.map_congr_left ?_), hwritten, hvariable, fun s hs => ?_⟩
  · rintro ⟨k', f⟩ hentry
    by_cases hsame : k' = k
    · subst hsame
      rw [form_unique hentry hk, value_int, value_int, hwritten, hvariable]
    · have hother : ¬(k'.group = k.group ∧ k'.name = k.name) := fun h =>
        hsame (key_eq_of_place (hall hk) (hall hentry) h.1 h.2)
      simp only [Lookup.value, hget, if_neg hother, hothers k' (hall hentry) hsame]
  · rw [← (resolve_eq_ok_iff.mp hs).2.1, lookup_values _ hk, value_int, hwritten]

/-- The largest number that fits, after a zero. -/
def ceiling : Decimal := ⟨false, [0, 2, 1, 4, 7, 4, 8, 3, 6, 4, 7], by decide⟩

/-- One less than the smallest. -/
def belowFloor : Decimal := ⟨true, [2, 1, 4, 7, 4, 8, 3, 6, 4, 9], by decide⟩

def paced (w : Decimal) : Environment := ⟨[(text "cliffguard_MONITOR_INTERVAL_MS", w.bytes)]⟩

theorem document_and_variable_agree_atBounds :
    (ofBytes .empty 4 (among [text "[pool]"] (Key.monitorInterval.line ceiling) [text "[veto]"]) =
        ofBytes (paced ceiling) 4 (text "[pool]\n[veto]") ∧
      Lookup.int ⟨.ofBytes (text "[pool]\n[veto]"), paced ceiling⟩ .monitorInterval 1000 =
        2147483647) ∧
      ofBytes .empty 4 (among [text "[pool]"] (Key.monitorInterval.line belowFloor)
        [text "[veto]"]) =
        ofBytes (paced belowFloor) 4 (text "[pool]\n[veto]") ∧
      Lookup.int ⟨.ofBytes (text "[pool]\n[veto]"), paced belowFloor⟩ .monitorInterval 1000 =
        1000 := by
  have hk : (Key.monitorInterval, Form.int 1000) ∈ table 4 := by simp [table]
  have hsection : sectionAfter (meaningful (Bytes.join [10] [text "[pool]"])) =
      Key.monitorInterval.group := by decide
  have habsent : (Document.ofBytes (Bytes.join [10] ([text "[pool]"] ++ [text "[veto]"]))).has
      Key.monitorInterval.group Key.monitorInterval.name = false := by decide
  obtain ⟨hceiling, -, hvalue, -⟩ := document_and_variable_agree hk ceiling hsection habsent
    (show (paced ceiling).lookup? _ = _ by decide)
    (show ∀ k ∈ Key.all, k ≠ .monitorInterval → Environment.empty.lookup? k.var = _ by decide)
  obtain ⟨hbelow, -, hdefault, -⟩ := document_and_variable_agree hk belowFloor hsection habsent
    (show (paced belowFloor).lookup? _ = _ by decide)
    (show ∀ k ∈ Key.all, k ≠ .monitorInterval → Environment.empty.lookup? k.var = _ by decide)
  exact ⟨⟨hceiling, hvalue⟩, hbelow, hdefault⟩

end Settings

end Headroom
