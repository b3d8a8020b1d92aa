/-!
# Byte strings

All text that this library reads or writes is a string of bytes: configuration files, environment
variables and task messages come from outside, so nothing here assumes an encoding. This module
holds the operations on byte strings that the readers and writers share: white space, cutting,
padding and plain decimal integers. Main statement: the digits of a number denote it
(`digitsValue_ofNat`).
-/

namespace Headroom

/-- A string of bytes. -/
abbrev Bytes := List UInt8

/-- The bytes of a piece of fixed wording. -/
def text (s : String) : Bytes := s.toList.flatMap String.utf8EncodeChar

namespace Bytes

/-- White space is the blank and the five control characters from tab to carriage return. -/
def isSpace (c : UInt8) : Bool := c == 32 || (9 ≤ c && c ≤ 13)

def isDigit (c : UInt8) : Bool := 48 ≤ c && c ≤ 57

/-- The value of a decimal digit. -/
def digitValue (c : UInt8) : Nat := c.toNat - 48

/-- Lower case of the ASCII letters; every other byte stays as it is. -/
def lowerByte (c : UInt8) : UInt8 := if 65 ≤ c && c ≤ 90 then c + 32 else c

def lower (s : Bytes) : Bytes := s.map lowerByte

def trimLeft (s : Bytes) : Bytes := s.dropWhile isSpace

def trimRight (s : Bytes) : Bytes := (s.reverse.dropWhile isSpace).reverse

/-- The string without the white space at either end. -/
def trim (s : Bytes) : Bytes := trimRight (trimLeft s)

/-- The pieces between the separators, one more than there are separators. -/
def split (sep : UInt8) : Bytes → List Bytes
  | [] => [[]]
  | c :: rest =>
    if c == sep then [] :: split sep rest
    else match split sep rest with
      | [] => [[c]]
      | piece :: pieces => (c :: piece) :: pieces

/-- The part before the first separator and the part after it. -/
def cut? (sep : UInt8) : Bytes → Option (Bytes × Bytes)
  | [] => none
  | c :: rest =>
    if c == sep then some ([], rest)
    else (cut? sep rest).map fun (before, after) => (c :: before, after)

/-- The part before the first separator; the whole string when there is none. -/
def before (sep : UInt8) (s : Bytes) : Bytes := s.takeWhile (· != sep)

/-- What a reader that stops at a NUL byte sees of a string. -/
def untilNul (s : Bytes) : Bytes := before 0 s

/-- Text laid down in a field of limited size keeps its first bytes. -/
def clip (limit : Nat) (s : Bytes) : Bytes := s.take limit

/-- Right-aligned in a field of at least the given width. -/
def padLeft (width : Nat) (s : Bytes) : Bytes := List.replicate (width - s.length) 32 ++ s

/-- Maximal runs of bytes other than white space. -/
def words (s : Bytes) : List Bytes :=
  let close (word : Bytes) (rest : List Bytes) := if word.isEmpty then rest else word :: rest
  let (word, rest) := s.foldr (fun c (word, rest) =>
    if isSpace c then ([], close word rest) else (c :: word, rest)) ([], [])
  close word rest

/-- Strings joined with a separator between neighbours. -/
def join (sep : Bytes) (parts : List Bytes) : Bytes := (parts.intersperse sep).flatten

/-- Plain decimal digits, most significant first. -/
def ofNat (n : Nat) : Bytes := (Nat.toDigits 10 n).map fun c => c.toNat.toUInt8

/-- Plain decimal digits after a minus sign where there is one. -/
def ofInt : Int → Bytes
  | .ofNat n => ofNat n
  | .negSucc n => 45 :: ofNat (n + 1)

/-- The number that a string of decimal digits denotes. -/
def digitsValue (ds : Bytes) : Nat := ds.foldl (fun n c => 10 * n + digitValue c) 0

/-! ### Facts about byte strings -/

theorem split_ne_nil (sep : UInt8) (s : Bytes) : split sep s ≠ [] := by
  fun_cases split sep s <;> simp

theorem join_cons_cons (sep a b : Bytes) (rest : List Bytes) :
    join sep (a :: b :: rest) = a ++ sep ++ join sep (b :: rest) := by
  simp [join]

theorem ofNat_ne_nil (n : Nat) : ofNat n ≠ [] := by
  simp [ofNat, Nat.toDigits_ne_nil]

/-- A digit character and its byte agree on being a digit and on the value. -/
theorem isDigit_byte {c : Char} (h : c.isDigit = true) :
    isDigit c.toNat.toUInt8 = true ∧ digitValue c.toNat.toUInt8 = c.toNat - 48 := by
  have h1 : 48 ≤ c.toNat ∧ c.toNat ≤ 57 := by
    rw [Char.isDigit, Bool.and_eq_true, decide_eq_true_eq, decide_eq_true_eq] at h
    exact h
  have h2 : c.toNat.toUInt8.toNat = c.toNat := Nat.mod_eq_of_lt (by omega)
  constructor
  · simp only [isDigit, Bool.and_eq_true, decide_eq_true_eq, UInt8.le_iff_toNat_le, h2]
    exact h1
  · rw [digitValue, h2]

theorem isDigit_of_mem_ofNat {n : Nat} {c : UInt8} (h : c ∈ ofNat n) : isDigit c = true := by
  obtain ⟨d, hd, rfl⟩ := List.mem_map.1 h
  exact (isDigit_byte (Nat.isDigit_of_mem_toDigits (by omega) (by omega) hd)).1

theorem foldl_digits (cs : List Char) (h : ∀ c ∈ cs, c.isDigit = true) (n : Nat) :
    (cs.map fun c => c.toNat.toUInt8).foldl (fun n c => 10 * n + digitValue c) n =
      Nat.ofDigitChars 10 cs n := by
  induction cs generalizing n with
  | nil => rfl
  | cons c cs ih =>
    rw [List.map_cons, List.foldl_cons, (isDigit_byte (h c List.mem_cons_self)).2,
      ih fun d hd => h d (List.mem_cons_of_mem c hd)]
    rfl

/-- The digits of a number denote it. -/
theorem digitsValue_ofNat (n : Nat) : digitsValue (ofNat n) = n := by
  have h : ∀ c ∈ Nat.toDigits 10 n, c.isDigit = true := fun c hc =>
    Nat.isDigit_of_mem_toDigits (by omega) (by omega) hc
  rw [digitsValue, ofNat, foldl_digits _ h]
  exact Nat.ofDigitChars_ten_toDigits

end Bytes

end Headroom
