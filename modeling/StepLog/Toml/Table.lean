/-
  TOML tables while they are being defined.

  A table is defined once: by a header, inline, or by dotted keys. A table that a header or
  a dotted key only passes through is there without being defined; a later header may define
  it if it was passed through by a header. Of an array of tables, the last one is open.
-/

namespace StepLog.Toml

/-- How a table came about. -/
inductive Origin
  /-- It has a header of its own, or is the root. -/
  | header
  /-- A header passed through it. -/
  | implied
  /-- Dotted keys passed through it. -/
  | dotted
  | inline
deriving DecidableEq

/-- A TOML value. Numbers and booleans are checked and not kept. -/
inductive Item
  | text (s : String)
  | datetime
  | atom
  | array (items : List Item)
  | table (origin : Origin) (entries : List (String × Item))
  /-- The tables of an array of tables, the last one open. -/
  | tables (elements : List (List (String × Item)))

abbrev Entries := List (String × Item)

/-- Puts another value under a key that is there. -/
def replace (key : String) (item : Item) : Entries → Entries
  | [] => []
  | (k, x) :: es => if k = key then (k, item) :: es else (k, x) :: replace key item es

/-- What is done to a table: from its origin and its entries to its new entries. -/
abbrev Change := Origin → Entries → Option Entries

/-- Makes a change at the end of a path. `byKey` tells a path of dotted keys from one of a
header: dotted keys do not pass through a table that has a header of its own. -/
def descend (byKey : Bool) (change : Change) : List String → Change
  | [], origin, es => change origin es
  | k :: path, _, es =>
    match es.lookup k with
    | none =>
      let origin := if byKey then Origin.dotted else Origin.implied
      (descend byKey change path origin []).map fun sub => es ++ [(k, .table origin sub)]
    | some (.table origin sub) =>
      if origin = .inline || (byKey && origin = .header) then none
      else (descend byKey change path origin sub).map fun new => replace k (.table origin new) es
    | some (.tables elements) =>
      match elements.getLast? with
      | none => none
      | some last =>
        (descend byKey change path .header last).map fun new =>
          replace k (.tables (elements.dropLast ++ [new])) es
    | some _ => none

/-- Adds an entry. Its key must be new; dotted keys may only end in a table of dotted
keys, other keys never do. -/
def add (throughDots : Bool) (key : String) (item : Item) : Change := fun origin es =>
  if decide (origin = .dotted) != throughDots || (es.lookup key).isSome then none
  else some (es ++ [(key, item)])

/-- Adds an entry under a path of dotted keys. -/
def assign (path : List String) (key : String) (item : Item) : Change :=
  descend true (add (!path.isEmpty) key item) path

/-- Defines the table of a header. -/
def define (key : String) : Change := fun _ es =>
  match es.lookup key with
  | none => some (es ++ [(key, .table .header [])])
  | some (.table .implied sub) => some (replace key (.table .header sub) es)
  | some _ => none

/-- Starts another table of an array of tables. -/
def extend (key : String) : Change := fun _ es =>
  match es.lookup key with
  | none => some (es ++ [(key, .tables [[]])])
  | some (.tables elements) => some (replace key (.tables (elements ++ [[]])) es)
  | some _ => none

end StepLog.Toml
