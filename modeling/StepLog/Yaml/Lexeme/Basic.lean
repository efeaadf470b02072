/-
  The lexemes of a YAML text.

  Indentation becomes lexemes of its own: collections begin and end. Whether a word is a
  key shows only at the colon behind it, so places where a key may have begun are
  remembered, and the lexemes that mark it are put in there later.
-/
import StepLog.Yaml.Lexeme.Scalar
import StepLog.Yaml.Lexeme.Tag

namespace StepLog.Yaml

inductive Lexeme
  | directive (d : Directive)
  | documentStart
  | documentEnd
  | blockSequenceStart
  | blockMappingStart
  | blockEnd
  | flowSequenceStart
  | flowSequenceEnd
  | flowMappingStart
  | flowMappingEnd
  | blockEntry
  | flowEntry
  | key
  | value
  | alias (name : List Char)
  | anchor (name : List Char)
  | tag (t : TagName)
  | scalar (plain : Bool) (text : List Char)

/-- A place where a key may have begun. -/
structure KeyPlace where
  /-- A colon must follow. -/
  required : Bool
  /-- Number of lexemes before it. -/
  lexemes : Nat
  index : Nat
  line : Nat
  column : Nat

structure Scan where
  cursor : Cursor
  /-- Number of flow collections around. -/
  flow : Nat
  /-- Indentation of the block collection around, or -1. -/
  indent : Int
  /-- Indentations of the block collections around that one. -/
  indents : List Int
  /-- A key may begin here. -/
  keyAllowed : Bool
  /-- For the innermost flow collection and each one around it: where a key may have begun. -/
  keys : List (Option KeyPlace)
  /-- The lexemes so far, the last one first. -/
  lexemes : List Lexeme

namespace Scan

def start (s : List Char) : Scan := ⟨.start s, 0, -1, [], true, [none], []⟩

def emit (x : Scan) (lexeme : Lexeme) : Scan := { x with lexemes := lexeme :: x.lexemes }

/-- Emits a lexeme of `n` characters. -/
def take (x : Scan) (n : Nat) (lexeme : Lexeme) : Scan :=
  { x.emit lexeme with cursor := x.cursor.forward n }

def allowKey (x : Scan) (b : Bool) : Scan := { x with keyAllowed := b }

/-- Puts in lexemes, the last one first, behind the first `place` lexemes. -/
def insertAt (x : Scan) (place : Nat) (new : List Lexeme) : Scan :=
  let n := x.lexemes.length - place
  { x with lexemes := x.lexemes.take n ++ new ++ x.lexemes.drop n }

/-! ## Places of keys -/

/-- The place is too far behind: on an earlier line, or more than 1024 characters away. -/
def isStale (x : Scan) (k : KeyPlace) : Bool :=
  k.line < x.cursor.line || k.index + 1024 < x.cursor.index

/-- Forgets the places that are too far behind; a key that had to be one is an error. -/
def dropStale (x : Scan) : Option Scan :=
  if x.keys.any fun k => k.any fun k => x.isStale k && k.required then none
  else some { x with keys := x.keys.map fun k => k.filter fun k => !x.isStale k }

/-- Forgets the innermost place. -/
def dropKey (x : Scan) : Option Scan :=
  match x.keys with
  | some k :: rest => if k.required then none else some { x with keys := none :: rest }
  | _ => some x

/-- Remembers that a key may begin here. -/
def saveKey (x : Scan) : Option Scan :=
  if x.keyAllowed then do
    let place : KeyPlace :=
      ⟨x.flow == 0 && x.indent == (x.cursor.column : Int), x.lexemes.length, x.cursor.index,
       x.cursor.line, x.cursor.column⟩
    let x ← x.dropKey
    return { x with keys := some place :: x.keys.drop 1 }
  else some x

/-! ## Indentation -/

/-- Begins a block collection if it is indented further than the one around it; its start
is put in behind the first `place` lexemes. -/
def roll (x : Scan) (column : Nat) (place : Nat) (lexeme : Lexeme) : Scan :=
  if x.flow == 0 && x.indent < (column : Int) then
    { x.insertAt place [lexeme] with indent := column, indents := x.indent :: x.indents }
  else x

/-- Ends the block collections that are indented further than `column`. -/
def unrollFrom (column : Int) : Nat → Scan → Scan
  | 0, x => x
  | fuel + 1, x =>
    if x.flow == 0 && column < x.indent then
      unrollFrom column fuel
        { x.emit .blockEnd with indent := x.indents.headD (-1), indents := x.indents.drop 1 }
    else x

def unroll (x : Scan) (column : Int) : Scan := unrollFrom column (x.indents.length + 1) x

/-! ## Blank space -/

/-- Goes over blank space, comments and line breaks. A tab is no blank space where a key
may begin. -/
def skipSpace : Nat → Scan → Scan
  | 0, x => x
  | fuel + 1, x =>
    let c := x.cursor
    let c := if c.column == 0 && c.peek? = some '\uFEFF' then c.forward 1 else c
    let c := c.skipWhile fun d => d = ' ' || (d = '\t' && (x.flow != 0 || !x.keyAllowed))
    let c := if c.peek? = some '#' then c.skipWhile (!isBreak ·) else c
    if c.peek?.any isBreak then
      skipSpace fuel { x with cursor := c.lineBreak.2, keyAllowed := x.flow == 0 || x.keyAllowed }
    else { x with cursor := c }

/-! ## Lexemes by kind -/

/-- A mark or directive at the start of a line ends all block collections. -/
def leaveBlocks (x : Scan) : Option Scan := do
  let x ← (x.unroll (-1)).dropKey
  return x.allowKey false

def fetchDirective (x : Scan) : Option Scan := do
  let x ← x.leaveBlocks
  let (d, rest) ← Yaml.directive (x.cursor.rest.drop 1)
  let c ← (x.cursor.goTo rest).restOfLine?
  return { x.emit (.directive d) with cursor := c }

def fetchMark (x : Scan) (lexeme : Lexeme) : Option Scan := do
  let x ← x.leaveBlocks
  return x.take 3 lexeme

def fetchFlowStart (x : Scan) (lexeme : Lexeme) : Option Scan := do
  let x ← x.saveKey
  return { x.take 1 lexeme with flow := x.flow + 1, keys := none :: x.keys, keyAllowed := true }

def fetchFlowEnd (x : Scan) (lexeme : Lexeme) : Option Scan := do
  let x ← x.dropKey
  let keys := if x.flow == 0 then x.keys else x.keys.drop 1
  return { x.take 1 lexeme with flow := x.flow - 1, keys := keys, keyAllowed := false }

def fetchFlowEntry (x : Scan) : Option Scan := do
  let x ← x.dropKey
  return (x.allowKey true).take 1 .flowEntry

/-- Begins a block collection at a dash or question mark, if one may begin here. -/
def openBlock (x : Scan) (lexeme : Lexeme) : Option Scan :=
  if x.flow != 0 then some x
  else if !x.keyAllowed then none
  else some (x.roll x.cursor.column x.lexemes.length lexeme)

def fetchBlockEntry (x : Scan) : Option Scan := do
  let x ← (← x.openBlock .blockSequenceStart).dropKey
  return (x.allowKey true).take 1 .blockEntry

def fetchKey (x : Scan) : Option Scan := do
  let x ← (← x.openBlock .blockMappingStart).dropKey
  return (x.allowKey (x.flow == 0)).take 1 .key

/-- A colon: what began at the remembered place is a key. -/
def fetchValue (x : Scan) : Option Scan :=
  match x.keys with
  | some k :: rest =>
    let x := (x.insertAt k.lexemes [.key]).roll k.column k.lexemes .blockMappingStart
    some ({ x with keys := none :: rest, keyAllowed := false }.take 1 .value)
  | _ => do
    let x ← x.openBlock .blockMappingStart
    return (x.allowKey (x.flow == 0)).take 1 .value

/-- The name of an anchor or alias, with what may follow it. -/
def fetchAnchor (x : Scan) (lexeme : List Char → Lexeme) : Option Scan := do
  let x ← x.saveKey
  let name := (x.cursor.rest.drop 1).takeWhile isNameChar
  let next := (x.cursor.rest.drop 1)[name.length]?
  if name.isEmpty || !(isBlankOrEnd next || next.any fun c => "?:,]\x7d%@\x60".toList.contains c)
  then none
  else return (x.allowKey false).take (name.length + 1) (lexeme name)

def fetchTag (x : Scan) : Option Scan := do
  let x ← x.saveKey
  let (t, rest) ← tagToken x.cursor.rest
  if isBlankOrEnd rest.head? || (x.flow != 0 && rest.head? = some ',') then
    return { (x.allowKey false).emit (.tag t) with cursor := x.cursor.goTo rest }
  else none

def fetchBlockScalar (x : Scan) (literal : Bool) : Option Scan := do
  let x ← x.dropKey
  let s ← blockScalar literal x.indent (x.cursor.forward 1)
  return { (x.allowKey true).emit (.scalar false s.text) with cursor := s.cursor }

def fetchQuoted (x : Scan) (quote : Char) : Option Scan := do
  let x ← x.saveKey
  let s ← quotedScalar quote (x.cursor.rest.length + 1) [] (x.cursor.forward 1)
  return { (x.allowKey false).emit (.scalar false s.text) with cursor := s.cursor }

def fetchPlain (x : Scan) : Option Scan := do
  let x ← x.saveKey
  let s ← plainScalar (x.flow != 0) (x.indent + 1) (x.cursor.rest.length + 1) [] .none x.cursor
  return { (x.allowKey s.broken).emit (.scalar true s.text) with cursor := s.cursor }

/-- A character that begins no plain scalar in any case. -/
def isReserved (c : Char) : Bool := "-?:,[]\x7b\x7d#&*!|>'\"%@\x60".toList.contains c

/-- A plain scalar may begin with `c` before `next`. -/
def beginsPlain (flow : Bool) (c : Char) (next : Option Char) : Bool :=
  !(isBlank c || isBreak c || isReserved c) ||
  (c = '-' && !next.any isBlank) || (!flow && (c = '?' || c = ':') && !isBlankOrEnd next)

/-- Reads the lexeme that begins with `c` before `next`. -/
def fetch (x : Scan) (c : Char) (next : Option Char) : Option Scan :=
  let flow := x.flow != 0
  if x.cursor.column = 0 ∧ c = '%' then x.fetchDirective
  else if x.cursor.atMark "---" then x.fetchMark .documentStart
  else if x.cursor.atMark "..." then x.fetchMark .documentEnd
  else if c = '[' then x.fetchFlowStart .flowSequenceStart
  else if c = '\x7b' then x.fetchFlowStart .flowMappingStart
  else if c = ']' then x.fetchFlowEnd .flowSequenceEnd
  else if c = '\x7d' then x.fetchFlowEnd .flowMappingEnd
  else if c = ',' then x.fetchFlowEntry
  else if c = '-' ∧ isBlankOrEnd next then x.fetchBlockEntry
  else if c = '?' ∧ (flow || isBlankOrEnd next) then x.fetchKey
  else if c = ':' ∧ (flow || isBlankOrEnd next) then x.fetchValue
  else if c = '*' then x.fetchAnchor .alias
  else if c = '&' then x.fetchAnchor .anchor
  else if c = '!' then x.fetchTag
  else if c = '|' ∧ !flow then x.fetchBlockScalar true
  else if c = '>' ∧ !flow then x.fetchBlockScalar false
  else if c = '\'' ∨ c = '"' then x.fetchQuoted c
  else if beginsPlain flow c next then x.fetchPlain
  else none

/-- The end of the text ends all block collections. -/
def finish (x : Scan) : Option (List Lexeme) := do
  let x ← (x.unroll (-1)).dropKey
  return x.lexemes.reverse

/-- Reads lexemes up to the end of the text. -/
def run : Nat → Scan → Option (List Lexeme)
  | 0, _ => none
  | fuel + 1, x => do
    let x ← (skipSpace (x.cursor.rest.length + 1) x).dropStale
    let x := x.unroll x.cursor.column
    match x.cursor.rest with
    | [] => x.finish
    | c :: rest => run fuel (← x.fetch c rest.head?)

end Scan

/-- A character that may stand in a YAML text. -/
def isAllowed (c : Char) : Bool :=
  let n := c.toNat
  n == 0x09 || n == 0x0A || n == 0x0D || (0x20 ≤ n && n ≤ 0x7E) || n == 0x85 ||
  (0xA0 ≤ n && n ≤ 0xD7FF) || (0xE000 ≤ n && n ≤ 0xFFFD) || 0x10000 ≤ n

/-- The lexemes of a text. -/
def lexemes? (s : List Char) : Option (List Lexeme) :=
  if s.all isAllowed then Scan.run (s.length + 2) (.start s) else none

end StepLog.Yaml
