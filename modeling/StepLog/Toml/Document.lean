/-
  TOML documents.

  A document is a list of lines: headers, keys with values, comments and empty lines. The
  readers yield the root table; a document with any fault has none.
-/
import StepLog.Toml.Scalar
import StepLog.Toml.Table

namespace StepLog.Toml

/-! ## Space between things -/

/-- The text behind a comment, if there is one. -/
def afterComment : List Char → List Char
  | '#' :: rest => rest.dropWhile isText
  | s => s

/-- The text behind the end of a line. -/
def lineEnd : List Char → Option (List Char)
  | [] => some []
  | '\n' :: rest => some rest
  | '\r' :: '\n' :: rest => some rest
  | _ => none

/-- The text behind what may follow on a line: blank space, a comment and its end. -/
def restOfLine (s : List Char) : Option (List Char) := lineEnd (afterComment (skipBlank s))

/-- Skips blank space, comments and line breaks. -/
def skipLines : Nat → List Char → List Char
  | 0, s => s
  | fuel + 1, s =>
    match s with
    | ' ' :: rest => skipLines fuel rest
    | '\t' :: rest => skipLines fuel rest
    | '\n' :: rest => skipLines fuel rest
    | '\r' :: '\n' :: rest => skipLines fuel rest
    | '#' :: rest => skipLines fuel (rest.dropWhile isText)
    | _ => s

def skipAll (s : List Char) : List Char := skipLines s.length s

/-! ## Values -/

mutual

/-- The value at the front and the text behind it. `depth` counts the arrays and inline
tables around it. -/
def value : Nat → Nat → List Char → Option (Item × List Char)
  | 0, _, _ => none
  | _, _, [] => none
  | fuel + 1, depth, c :: rest =>
    if c = '"' ∨ c = '\'' then (string (c :: rest)).map fun p => (.text (String.ofList p.1), p.2)
    else if c = '[' then
      if depth + 1 < depthLimit then
        (elements fuel (depth + 1) (skipAll rest)).map fun p => (.array p.1, p.2)
      else none
    else if c = '\x7b' then
      if depth + 1 < depthLimit then
        match skipBlank rest with
        | '\x7d' :: after => some (.table .inline [], after)
        | _ => (members fuel (depth + 1) [] rest).map fun p => (.table .inline p.1, p.2)
      else none
    else if c = 't' then (afterWord "rue" rest).map (Item.atom, ·)
    else if c = 'f' then (afterWord "alse" rest).map (Item.atom, ·)
    else match datetime (c :: rest) with
      | some after => some (.datetime, after)
      | none => (number (c :: rest)).map (Item.atom, ·)

/-- The values of an array up to its closing bracket; a comma may follow the last one. -/
def elements : Nat → Nat → List Char → Option (List Item × List Char)
  | 0, _, _ => none
  | _, _, [] => none
  | fuel + 1, depth, c :: rest =>
    if c = ']' then some ([], rest)
    else do
      let (v, behind) ← value fuel depth (c :: rest)
      match skipAll behind with
      | ',' :: more => do
        let (vs, after) ← elements fuel depth (skipAll more)
        return (v :: vs, after)
      | ']' :: after => return ([v], after)
      | _ => none

/-- The members of an inline table up to its closing brace, added to those before. -/
def members : Nat → Nat → Entries → List Char → Option (Entries × List Char)
  | 0, _, _, _ => none
  | fuel + 1, depth, before, s => do
    let (path, behindKey) ← key s
    let start ← afterChar '=' behindKey
    let (v, behind) ← value fuel depth (skipBlank start)
    let name ← path.getLast?
    let es ← assign path.dropLast name v .inline before
    match skipBlank behind with
    | ',' :: more => members fuel depth es more
    | '\x7d' :: after => return (es, after)
    | _ => none

end

/-! ## Lines -/

/-- The tables of a document so far, and the path of the header that is in force. -/
structure Tables where
  root : Entries
  current : List String

/-- A header: its path behind the opening brackets, up to the end of its line. -/
def header (closing : String) (s : List Char) : Option (List String × List Char) := do
  let (path, behindPath) ← key s
  let behind ← afterWord closing behindPath
  return (path, ← restOfLine behind)

/-- Enters the table at a path, as its header asks. -/
def Tables.enter (t : Tables) (change : String → Change) (path : List String) : Option Tables := do
  let name ← path.getLast?
  let root ← descend false (change name) path.dropLast .header t.root
  return ⟨root, path⟩

/-- Adds an entry to the table of the header in force. -/
def Tables.assign (t : Tables) (path : List String) (item : Item) : Option Tables := do
  let name ← path.getLast?
  let root ← descend false (Toml.assign path.dropLast name item) t.current .header t.root
  return { t with root := root }

/-- A key with its value, up to the end of the line. -/
def entry (s : List Char) : Option ((List String × Item) × List Char) := do
  let (path, behindKey) ← key s
  let start ← afterChar '=' behindKey
  let (v, behind) ← value (2 * s.length + 2) 0 (skipBlank start)
  return ((path, v), ← restOfLine behind)

/-- Reads the lines of a document. -/
def readLines : Nat → Tables → List Char → Option Tables
  | 0, _, _ => none
  | fuel + 1, t, s =>
    match skipBlank s with
    | [] => some t
    | '#' :: rest => do readLines fuel t (← restOfLine ('#' :: rest))
    | '\n' :: rest => readLines fuel t rest
    | '\r' :: '\n' :: rest => readLines fuel t rest
    | '[' :: '[' :: rest => do
      let (path, behind) ← header "]]" rest
      readLines fuel (← t.enter extend path) behind
    | '[' :: rest => do
      let (path, behind) ← header "]" rest
      readLines fuel (← t.enter define path) behind
    | line => do
      let ((path, item), behind) ← entry line
      readLines fuel (← t.assign path item) behind

/-- The root table of a document, which may start with a byte order mark. -/
def Item.read? (s : List Char) : Option Item :=
  let text := match s with
    | '\uFEFF' :: rest => rest
    | _ => s
  (readLines (text.length + 1) ⟨[], []⟩ text).map fun t => .table .header t.root

end StepLog.Toml
