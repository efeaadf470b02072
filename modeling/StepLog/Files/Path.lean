/-
  Paths, and what is found at them.

  A path is a sequence of bytes with slashes between its parts. Empty parts and single
  dots say nothing, except a dot at the front. Two paths are the same if they have the same
  parts. Messages show a path as text, however much of it is text. A file system is what
  there is at its paths, as far as reading goes.
-/
import StepLog.Text.Lines
import StepLog.Text.Utf8

namespace StepLog

abbrev Path := Text.Bytes

namespace Path

def slash : UInt8 := 0x2F

def dot : UInt8 := 0x2E

def ofString (s : String) : Path := Text.encode s

/-- A path as messages show it. -/
def shown (p : Path) : String := Text.decodeLossy p

def isAbsolute (p : Path) : Bool := p.head? == some slash

/-- The pieces between the slashes. -/
def pieces (p : Path) : List Text.Bytes := Text.splitAt slash p

/-- The parts that say something. -/
def parts (p : Path) : List Text.Bytes :=
  (if p.pieces.head? == some [dot] then [[dot]] else []) ++
    p.pieces.filter fun x => !x.isEmpty && x != [dot]

/-- The two paths have the same parts. -/
def same (p q : Path) : Bool := p.isAbsolute == q.isAbsolute && p.parts == q.parts

/-- A path inside a directory. An absolute path stays what it is. -/
def join (directory p : Path) : Path :=
  if p.isAbsolute || directory.isEmpty then p
  else if directory.getLast? = some slash then directory ++ p
  else directory ++ slash :: p

/-- The last part, if it names something. -/
def fileName? (p : Path) : Option Text.Bytes :=
  p.parts.getLast?.filter fun x => x != [dot] && x != [dot, dot]

/-- What stands behind the last dot of a file name. A dot at its start begins no extension. -/
def extension? (p : Path) : Option Text.Bytes :=
  match p.fileName? with
  | none => none
  | some name =>
    let behind := (name.reverse.takeWhile (· ≠ dot)).reverse
    if name.length ≤ behind.length + 1 then none else some behind

/-- The extension as text. -/
def extensionText? (p : Path) : Option String := p.extension?.bind Text.decode?

end Path

/-! ## Files -/

/-- What is found at a path. -/
inductive FileState
  | missing
  /-- Something that cannot be read as a file, such as a directory. -/
  | unreadable
  | contents (b : Text.Bytes)
deriving DecidableEq

def FileState.exists (f : FileState) : Bool := f != .missing

/-- The text of a file. -/
def FileState.text? : FileState → Option String
  | .contents b => Text.decode? b
  | _ => none

abbrev Files := Path → FileState

end StepLog
