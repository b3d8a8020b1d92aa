import Headroom.Bytes
import Headroom.Number.Reader

/-!
# Configuration documents

A document has sections, each opened by a line `[name]`, with lines `key = value` in them. A value
may be quoted; a comment starts with a number sign. Lines that are neither are passed over. An
assignment replaces an earlier one to the same key of the same section.
-/

namespace Headroom

/-- What one line of a document says. -/
inductive Document.Line
  /-- Nothing: white space, a comment, or something that is no assignment. -/
  | idle
  | header (name : Bytes)
  | assignment (key value : Bytes)
deriving Repr, DecidableEq

structure Document.Section where
  name : Bytes
  entries : List (Bytes × Bytes)
deriving Repr, DecidableEq

/-- Sections by name, in the order of their first appearance. Assignments before the first header
belong to the section with the empty name. -/
structure Document where
  sections : List Document.Section
deriving Repr, DecidableEq

namespace Document

/-- The value on the right of an equals sign. A quoted value ends at the next quote, an unquoted one
before a comment. -/
def valueOf (rhs : Bytes) : Bytes :=
  match Bytes.trim rhs with
  | 34 :: c :: rest => Bytes.before 34 (c :: rest)
  | rhs => Bytes.trim (Bytes.before 35 rhs)

def Line.ofBytes (raw : Bytes) : Line :=
  let line := Bytes.trim raw
  if line.isEmpty || line.head? == some 35 then .idle
  else if line.head? == some 91 && line.getLast? == some 93 then
    .header (Bytes.trim (line.drop 1).dropLast)
  else match Bytes.cut? 61 line with
    | none => .idle
    | some (key, rhs) => .assignment (Bytes.trim key) (valueOf rhs)

/-- An association list with the value at a key replaced, or added at the end. -/
def put (key value : Bytes) : List (Bytes × Bytes) → List (Bytes × Bytes)
  | [] => [(key, value)]
  | (k, v) :: rest => if k == key then (k, value) :: rest else (k, v) :: put key value rest

/-- The sections with the named one changed; it is added at the end if it is new. -/
def update (name : Bytes) (f : List (Bytes × Bytes) → List (Bytes × Bytes)) :
    List Section → List Section
  | [] => [⟨name, f []⟩]
  | s :: rest => if s.name == name then { s with entries := f s.entries } :: rest
      else s :: update name f rest

def empty : Document := ⟨[]⟩

/-- The document with a section opened. -/
def openSection (d : Document) (name : Bytes) : Document := ⟨update name id d.sections⟩

def assign (d : Document) (name key value : Bytes) : Document :=
  ⟨update name (put key value) d.sections⟩

/-- A document that is being read, and the section that is open. -/
def readLine : Document × Bytes → Line → Document × Bytes
  | state, .idle => state
  | (d, _), .header name => (d.openSection name, name)
  | (d, name), .assignment key value => (d.assign name key value, name)

/-- The document without all that it held. -/
def clear (d : Document) : Document := { d with sections := [] }

/-- The document after a text was read into it. What it held before is given up. -/
def load (d : Document) (source : Bytes) : Document :=
  (((Bytes.split 10 source).map Line.ofBytes).foldl readLine (d.clear, [])).1

/-- The document that a text holds. Every text holds one. -/
def ofBytes (source : Bytes) : Document := empty.load source

/-- The value at a key of a section. -/
def get? (d : Document) (name key : Bytes) : Option Bytes := do
  let s ← d.sections.find? (·.name == name)
  let (_, value) ← s.entries.find? (·.1 == key)
  some value

def has (d : Document) (name key : Bytes) : Bool := (d.get? name key).isSome

def string (d : Document) (name key default : Bytes) : Bytes := (d.get? name key).getD default

def int (d : Document) (name key : Bytes) (default : Int) : Int :=
  ((d.get? name key).bind Reader.lenientInt?).getD default

def float (d : Document) (name key : Bytes) (default : Float) : Float :=
  ((d.get? name key).bind Reader.lenientFloat?).getD default

/-- The spellings of yes and no in a document. -/
def flagOf? (s : Bytes) : Option Bool :=
  if [text "true", text "True", text "TRUE", text "1"].contains s then some true
  else if [text "false", text "False", text "FALSE", text "0"].contains s then some false
  else none

def flag (d : Document) (name key : Bytes) (default : Bool) : Bool :=
  ((d.get? name key).bind flagOf?).getD default

end Document

end Headroom
