import Headroom.Bytes
import Mathlib.Data.List.DropRight
import Mathlib.Data.List.Induction
import Mathlib.Data.List.TakeWhile

/-!
# Trimming and cutting byte strings

What the readers of text rely on, apart from any one format, and how they look up what was read:

* **`trim_cons_space`**, **`trim_concat_space`**: white space at the ends does not survive trimming,
  and a string without any is left as it is (`trim_of_tidy`).
* **`trim_append_cons`**: around a byte that is no white space, each side is trimmed at its own end.
* **`cut?_eq_some_iff`**, **`before_append`**: a string is cut at the first separator.
* **`split_append`**, **`split_cons_of_ne`**, **`split_concat_of_ne`**: splitting, in the middle and
  from either end.
* **`split_lines`**: pieces that each end with a separator are found again.
* **`lookup_of_mem`**: in a table that has no key twice every entry is found.
-/

namespace Headroom.Bytes

variable {sep c : UInt8} {s : Bytes}

/-! ## Trimming -/

/-- Nothing but white space, as `isSpace` has it. The empty string is blank. -/
def Blank (pad : Bytes) : Prop := ∀ c ∈ pad, isSpace c = true

instance (pad : Bytes) : Decidable (Blank pad) :=
  decidable_of_iff (pad.all isSpace = true) List.all_eq_true

theorem trim_cons_space (hc : isSpace c = true) (s : Bytes) : trim (c :: s) = trim s := by
  unfold trim trimLeft
  rw [List.dropWhile_cons_of_pos hc]

theorem trimRight_concat_space (hc : isSpace c = true) (s : Bytes) :
    trimRight (s ++ [c]) = trimRight s := by
  unfold trimRight
  rw [List.reverse_append, List.reverse_singleton, List.singleton_append,
    List.dropWhile_cons_of_pos hc]

theorem trim_concat_space (hc : isSpace c = true) (s : Bytes) : trim (s ++ [c]) = trim s := by
  unfold trim trimLeft
  rw [List.dropWhile_append]
  split
  · next hempty =>
    rw [List.isEmpty_iff.mp hempty, List.dropWhile_cons_of_pos hc, List.dropWhile_nil]
  · exact trimRight_concat_space hc _

/-- No white space at either end. Such a string is what `trim` returns and what it leaves alone. -/
def tidy (s : Bytes) : Bool := s.head?.all (!isSpace ·) && s.getLast?.all (!isSpace ·)

theorem trim_of_tidy (h : tidy s = true) : trim s = s := by
  obtain ⟨hhead, hlast⟩ := Bool.and_eq_true_iff.mp h
  have hleft : trimLeft s = s := by
    cases s with
    | nil => rfl
    | cons c rest =>
      apply List.dropWhile_cons_of_neg
      simpa using hhead
  -- the last byte is the first one from the other end
  have hright : s.reverse.dropWhile isSpace = s.reverse := by
    rw [← List.head?_reverse] at hlast
    cases hrev : s.reverse with
    | nil => rfl
    | cons c rest =>
      apply List.dropWhile_cons_of_neg
      simpa [hrev] using hlast
  show trimRight (trimLeft s) = s
  rw [hleft, trimRight, hright, List.reverse_reverse]

theorem trimLeft_of_blank {pad : Bytes} (hpad : Blank pad) : trimLeft pad = [] :=
  List.dropWhile_eq_nil_iff.mpr hpad

theorem trimRight_of_blank {pad : Bytes} (hpad : Blank pad) : trimRight pad = [] :=
  List.rdropWhile_eq_nil_iff.mpr hpad

/-- White space at the end does not matter to `trim`, however much of it there is. -/
theorem trim_append_blank (s : Bytes) {pad : Bytes} (hpad : Blank pad) :
    trim (s ++ pad) = trim s := by
  induction pad using List.reverseRecOn with
  | nil => rw [List.append_nil]
  | append_singleton pad c ih =>
    rw [← List.append_assoc, trim_concat_space (hpad c (by simp)), ih fun b hb =>
      hpad b (List.mem_append_left _ hb)]

theorem trim_trimLeft (s : Bytes) : trim (trimLeft s) = trim s := by
  unfold trim trimLeft
  rw [List.dropWhile_idempotent]

theorem trim_trimRight (s : Bytes) : trim (trimRight s) = trim s := by
  have hsplit : trimRight s ++ s.rtakeWhile isSpace = s := List.rdropWhile_append_rtakeWhile
  conv_rhs => rw [← hsplit]
  exact (trim_append_blank _ fun c hc => List.mem_rtakeWhile_imp hc).symm

/-- What `trimRight` returns stays as it is up to its last byte that is no white space. -/
theorem trimRight_append_cons (hc : isSpace c = false) (a b : Bytes) :
    trimRight (a ++ c :: b) = a ++ c :: trimRight b := by
  have hc : ¬isSpace c = true := by simp [hc]
  unfold trimRight
  rw [List.reverse_append, List.reverse_cons, List.append_assoc, List.dropWhile_append]
  split
  · next hempty =>
    rw [List.isEmpty_iff.mp hempty, List.singleton_append, List.dropWhile_cons_of_neg hc]
    simp
  · simp

/-- What `trimLeft` returns stays as it is from its first byte on that is no white space. -/
theorem trimLeft_append_cons (hc : isSpace c = false) (a b : Bytes) :
    trimLeft (a ++ c :: b) = trimLeft a ++ c :: b := by
  unfold trimLeft
  rw [List.dropWhile_append]
  split
  · next hempty =>
    rw [List.isEmpty_iff.mp hempty, List.dropWhile_cons_of_neg (by simp [hc])]
    rfl
  · rfl

/-- With a byte `c` in it that is no white space, a string is trimmed on either side of `c`. -/
theorem trim_append_cons (hc : isSpace c = false) (a b : Bytes) :
    trim (a ++ c :: b) = trimLeft a ++ c :: trimRight b := by
  rw [trim, trimLeft_append_cons hc, trimRight_append_cons hc]

/-- Trimming at one end leaves the other end as it is, even if nothing but white space is there. -/
theorem head?_trim (s : Bytes) : (trim s).head? = (trimLeft s).head? := by
  rw [trim]
  cases hleft : trimLeft s with
  | nil => rfl
  | cons c rest =>
    have hsome : trimLeft s ≠ [] := by simp [hleft]
    have hfirst : isSpace ((trimLeft s).head hsome) = false := List.head_dropWhile_not isSpace hsome
    have hc : isSpace c = false := by simpa [hleft] using hfirst
    have hkept : trimRight (c :: rest) = c :: trimRight rest := trimRight_append_cons hc [] rest
    rw [hkept]
    rfl

theorem getLast?_trim (s : Bytes) : (trim s).getLast? = (trimRight s).getLast? := by
  rw [← trim_trimRight]
  by_cases hright : trimRight s = []
  · rw [hright]
    rfl
  · have hlast : isSpace ((trimRight s).getLast hright) = false := by
      rw [← Bool.not_eq_true]
      exact List.rdropWhile_last_not isSpace s hright
    rw [← List.dropLast_concat_getLast hright, trim_append_cons hlast, List.getLast?_append_cons,
      List.getLast?_concat]
    rfl

/-- `trim` leaves no white space at either end, so a second one has nothing to do. -/
theorem trim_trim (s : Bytes) : trim (trim s) = trim s :=
  (trim_trimRight (trimLeft s)).trans (trim_trimLeft s)

theorem mem_of_mem_trimLeft (h : c ∈ trimLeft s) : c ∈ s :=
  (List.dropWhile_sublist isSpace).subset h

theorem mem_of_mem_trim (h : c ∈ trim s) : c ∈ s :=
  mem_of_mem_trimLeft ((List.rdropWhile_prefix isSpace (l := trimLeft s)).subset h)

theorem trim_cons_of_not_space (hc : isSpace c = false) (s : Bytes) :
    trim (c :: s) = c :: trimRight s :=
  trim_append_cons hc [] s

theorem isSpace_of_isDigit (h : isDigit c = true) : isSpace c = false := by
  simp only [isDigit, isSpace, Bool.and_eq_true, decide_eq_true_eq, Bool.or_eq_false_iff,
    beq_eq_false_iff_ne, Bool.and_eq_false_imp, decide_eq_false_iff_not, UInt8.le_iff_toNat_le,
    ne_eq, ← UInt8.toNat_inj] at h ⊢
  simp only [UInt8.reduceToNat] at h ⊢
  omega

/-! ## Cutting -/

/-- A string is cut by `cut?` at the first separator, whatever comes after it. -/
theorem cut?_append (hsep : sep ∉ s) (rest : Bytes) :
    cut? sep (s ++ sep :: rest) = some (s, rest) := by
  induction s with
  | nil => simp [cut?]
  | cons c s ih =>
    rw [List.mem_cons, not_or] at hsep
    have hc : (c == sep) = false := by simpa using Ne.symm hsep.1
    simp only [List.cons_append, cut?, hc, ih hsep.2, Option.map_some, Bool.false_eq_true, if_false]

/-- A string is cut at the first separator in it: `cut?` finds the only split in which the first
part has none. -/
theorem cut?_eq_some_iff {a b : Bytes} :
    cut? sep s = some (a, b) ↔ s = a ++ sep :: b ∧ sep ∉ a := by
  constructor
  · intro h
    induction s generalizing a with
    | nil => cases h
    | cons c s ih =>
      unfold cut? at h
      split at h
      · next hc =>
        cases h
        rw [eq_of_beq hc]
        exact ⟨rfl, List.not_mem_nil⟩
      · next hc =>
        obtain ⟨⟨a', b'⟩, hcut, heq⟩ := Option.map_eq_some_iff.mp h
        cases heq
        obtain ⟨hs, hsep⟩ := ih hcut
        refine ⟨by rw [hs]; rfl, ?_⟩
        rw [List.mem_cons, not_or]
        exact ⟨fun heq => hc (by rw [heq]; exact beq_self_eq_true c), hsep⟩
  · rintro ⟨rfl, hsep⟩
    exact cut?_append hsep b

theorem cut?_of_not_mem (hsep : sep ∉ s) : cut? sep s = none := by
  cases hcut : cut? sep s with
  | none => rfl
  | some parts =>
    obtain ⟨hs, -⟩ := cut?_eq_some_iff.mp hcut
    exact absurd (hs ▸ List.mem_append_right _ List.mem_cons_self) hsep

theorem before_of_not_mem (hsep : sep ∉ s) : before sep s = s := by
  unfold before
  rw [List.takeWhile_eq_self_iff]
  intro c hc
  exact bne_iff_ne.mpr fun heq => hsep (heq ▸ hc)

theorem before_append (hsep : sep ∉ s) (rest : Bytes) : before sep (s ++ sep :: rest) = s := by
  have hall : ∀ c ∈ s, (c != sep) = true := fun c hc => bne_iff_ne.mpr fun heq => hsep (heq ▸ hc)
  unfold before
  rw [List.takeWhile_append_of_pos hall, List.takeWhile_cons_of_neg (by simp), List.append_nil]

/-! ## Splitting -/

theorem split_cons_sep (s : Bytes) : split sep (sep :: s) = [] :: split sep s := by
  simp [split]

theorem split_cons_of_ne (hc : c ≠ sep) (s : Bytes) :
    ∃ piece pieces, split sep s = piece :: pieces ∧
      split sep (c :: s) = (c :: piece) :: pieces := by
  obtain ⟨piece, pieces, hs⟩ := List.exists_cons_of_ne_nil (split_ne_nil sep s)
  refine ⟨piece, pieces, hs, ?_⟩
  simp [split, hc, hs]

/-- A separator divides the pieces of `split`: those before it and those after it do not depend on
each other. -/
theorem split_append (a b : Bytes) : split sep (a ++ sep :: b) = split sep a ++ split sep b := by
  induction a with
  | nil => exact split_cons_sep b
  | cons c a ih =>
    by_cases hc : c = sep
    · subst hc
      rw [List.cons_append, split_cons_sep, split_cons_sep, ih]
      rfl
    · obtain ⟨piece, pieces, ha, hca⟩ := split_cons_of_ne hc a
      obtain ⟨piece', pieces', hab, hcab⟩ := split_cons_of_ne hc (a ++ sep :: b)
      rw [ih, ha] at hab
      cases hab
      rw [List.cons_append, hcab, hca]
      rfl

theorem split_of_not_mem (hsep : sep ∉ s) : split sep s = [s] := by
  induction s with
  | nil => rfl
  | cons c s ih =>
    rw [List.mem_cons, not_or] at hsep
    obtain ⟨piece, pieces, hs, hcs⟩ := split_cons_of_ne (Ne.symm hsep.1) s
    rw [ih hsep.2] at hs
    cases hs
    exact hcs

/-- Lines that end with the separator are found again, with an empty piece behind the last end. -/
theorem split_lines {lines : List Bytes} (h : ∀ line ∈ lines, sep ∉ line) :
    split sep (lines.flatMap (· ++ [sep])) = lines ++ [[]] := by
  induction lines with
  | nil => rfl
  | cons line rest ih =>
    have hrest : split sep (rest.flatMap (· ++ [sep])) = rest ++ [[]] :=
      ih fun l hl => h l (List.mem_cons_of_mem line hl)
    rw [List.flatMap_cons, List.append_assoc, List.singleton_append, split_append, hrest,
      split_of_not_mem (h line List.mem_cons_self)]
    rfl

theorem join_singleton (sep s : Bytes) : join sep [s] = s := by
  simp [join]

/-- A byte at the end that is no separator belongs to the last piece. -/
theorem split_concat_of_ne (hc : c ≠ sep) (s : Bytes) :
    ∃ pieces piece, split sep s = pieces ++ [piece] ∧
      split sep (s ++ [c]) = pieces ++ [piece ++ [c]] := by
  induction s with
  | nil => exact ⟨[], [], rfl, split_of_not_mem (by simpa using Ne.symm hc)⟩
  | cons b s ih =>
    obtain ⟨pieces, piece, hs, hsc⟩ := ih
    by_cases hb : b = sep
    · subst hb
      rw [List.cons_append, split_cons_sep, split_cons_sep, hs, hsc]
      exact ⟨[] :: pieces, piece, rfl, rfl⟩
    · obtain ⟨p, ps, hp, hbp⟩ := split_cons_of_ne hb s
      obtain ⟨p', ps', hp', hbp'⟩ := split_cons_of_ne hb (s ++ [c])
      rw [List.cons_append, hbp, hbp']
      rw [hs] at hp
      rw [hsc] at hp'
      cases pieces with
      | nil => cases hp; cases hp'; exact ⟨[], b :: piece, rfl, rfl⟩
      | cons q qs => cases hp; cases hp'; exact ⟨(b :: _) :: qs, piece, rfl, rfl⟩

end Headroom.Bytes

/-! ## Tables -/

namespace Headroom

/-- In a table with distinct keys every entry is found under its key. -/
theorem lookup_of_mem {κ β : Type} [BEq κ] [LawfulBEq κ] {table : List (κ × β)}
    (hnodup : (table.map Prod.fst).Nodup) {k : κ} {b : β} (h : (k, b) ∈ table) :
    table.lookup k = some b := by
  induction table with
  | nil => cases h
  | cons entry rest ih =>
    rw [List.map_cons, List.nodup_cons] at hnodup
    rw [List.lookup_cons]
    rcases List.mem_cons.mp h with rfl | hrest
    · rw [beq_self_eq_true]
    · have hother : k ≠ entry.1 := fun heq => hnodup.1 (heq ▸ List.mem_map_of_mem hrest)
      rw [beq_eq_false_iff_ne.mpr hother]
      exact ih hnodup.2 hrest

end Headroom
