import Headroom.Environment

/-!
# Files

The files that can be read. A path is walked name by name, from the root if it starts with a slash
and from the working directory otherwise; only a directory can be walked through, and a directory
that is opened reads as empty.
-/

namespace Headroom

/-- Files by place, with a text each; a directory has none. A place is a list of names, and an empty
first name stands for the root. -/
structure Files where
  entries : List (List Bytes × Option Bytes)

namespace Files

/-- Where a path starts. -/
def origin (path : Bytes) : List Bytes := if path.head? == some 47 then [[]] else []

/-- The names on a path. A name that is empty or a single point stays where it is. -/
def names (path : Bytes) : List Bytes :=
  (Bytes.split 47 path).filter fun name => !name.isEmpty && name != text "."

/-- Files given by path, with the text of each or nothing for a directory. -/
def ofList (files : List (Bytes × Option Bytes)) : Files :=
  ⟨files.map fun (path, content) => (origin path ++ names path, content)⟩

/-- Whether there is a directory at a place: the working directory, the root, one that is listed, or
one on the way to a listed entry. -/
def isDirectory (fs : Files) (place : List Bytes) : Bool :=
  place == [] || place == [[]] || fs.entries.any fun (path, content) =>
    place.isPrefixOf path && (content.isNone || path.length != place.length)

/-- The place above another. Above the root there is only the root; what is above the working
directory is not known. -/
def parent? (place : List Bytes) : Option (List Bytes) :=
  if place == [[]] then some place else if place.isEmpty then none else some place.dropLast

/-- The place that a path leads to from a place. -/
def walk (fs : Files) (place : List Bytes) : List Bytes → Option (List Bytes)
  | [] => some place
  | name :: rest =>
    if !fs.isDirectory place then none
    else if name == text ".." then (parent? place).bind (fs.walk · rest)
    else fs.walk (place ++ [name]) rest

/-- Whether a path names a directory by its form: it ends with a slash or with a single point. -/
def asksDirectory (path : Bytes) : Bool :=
  let last := (Bytes.split 47 path).getLast?
  last == some [] || last == some (text ".")

/-- The text that opening a path gives. A path ends at a NUL byte. -/
def read? (fs : Files) (path : Bytes) : Option Bytes := do
  let path := Bytes.untilNul path
  if path.isEmpty then none
  else
    let place ← fs.walk (origin path) (names path)
    if fs.isDirectory place then some []
    else if asksDirectory path then none
    else
      let (_, content) ← fs.entries.find? (·.1 == place)
      content

end Files

/-- A file, where the process file system may be moved below another root. -/
def Environment.contents? (env : Environment) (fs : Files) (path : Bytes) : Option Bytes :=
  fs.read? (env.procPath path)

end Headroom
