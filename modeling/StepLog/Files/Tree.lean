/-
  Directory trees in memory.

  A path is followed part by part: every part but the last has to be a directory, two dots
  lead to the directory around, and a slash or dot at the end asks for a directory.
-/
import StepLog.Files.Path

namespace StepLog

/-- A directory tree: files and directories by the names that lead to them. -/
structure Tree where
  directories : List (List Text.Bytes)
  files : List (List Text.Bytes × Text.Bytes)

namespace Tree

/-- A tree of nothing but its top directory. -/
def empty : Tree := ⟨[[]], []⟩

def isDirectory (t : Tree) (names : List Text.Bytes) : Bool := t.directories.contains names

def file? (t : Tree) (names : List Text.Bytes) : Option Text.Bytes := t.files.lookup names

/-- Adds a directory and those around it. -/
def addDirectory (t : Tree) (names : List Text.Bytes) : Tree :=
  { t with directories := t.directories ++ (List.range (names.length + 1)).map names.take }

/-- Sets the contents of a file; the directories around it are made. -/
def addFile (t : Tree) (names : List Text.Bytes) (b : Text.Bytes) : Tree :=
  let t := t.addDirectory names.dropLast
  { t with files := (names, b) :: t.files.filter fun f => f.1 ≠ names }

/-- Follows pieces of a path from a directory. -/
def follow (t : Tree) : List Text.Bytes → List Text.Bytes → Option (List Text.Bytes)
  | names, [] => some names
  | names, x :: rest =>
    if !t.isDirectory names then none
    else if x.isEmpty || x == [Path.dot] then t.follow names rest
    else if x == [Path.dot, Path.dot] then t.follow names.dropLast rest
    else t.follow (names ++ [x]) rest

/-- The names that a path leads to from a working directory. -/
def resolve (t : Tree) (workingDirectory : List Text.Bytes) (p : Path) :
    Option (List Text.Bytes) :=
  if p.isEmpty then none else t.follow (if p.isAbsolute then [] else workingDirectory) p.pieces

/-- What paths lead to, from a working directory. -/
def look (t : Tree) (workingDirectory : List Text.Bytes) : Files := fun p =>
  match t.resolve workingDirectory p with
  | none => .missing
  | some names =>
    if t.isDirectory names then .unreadable
    else match t.file? names with
      | some b => .contents b
      | none => .missing

/-- Writes a file, new or not, into a directory that is there. -/
def write? (t : Tree) (workingDirectory : List Text.Bytes) (p : Path) (b : Text.Bytes) :
    Option Tree :=
  match t.resolve workingDirectory p with
  | none => none
  | some names =>
    if t.isDirectory names || !t.isDirectory names.dropLast then none else some (t.addFile names b)

end Tree

end StepLog
