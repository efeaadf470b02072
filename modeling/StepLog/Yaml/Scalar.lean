/-
  How a scalar is spelled.

  A text is plain where a reader would take it back unchanged, else in single quotes,
  else in double quotes with escapes. A text of several lines is a literal block. `shape`
  collects what decides, in one pass over the characters with their neighbors.
-/
import StepLog.Yaml.Resolve

namespace StepLog.Yaml

/-! ## Characters -/

/-- A line break: line feed, carriage return, next line, line and paragraph separator. -/
def isBreak (c : Char) : Bool :=
  c = '\n' || c = '\r' || c = '\u0085' || c = '\u2028' || c = '\u2029'

/-- A character that may stand in a document without escape. -/
def isPrintable (c : Char) : Bool :=
  let n := c.toNat
  n == 0x0A || (0x20 ≤ n && n ≤ 0x7E) || (0xA0 ≤ n && n ≤ 0xD7FF) ||
  (0xE000 ≤ n && n ≤ 0xFFFD && n != 0xFEFF) || 0x10000 ≤ n

/-- Blank space, a line break, NUL or the end of the text. -/
def isBlankOrEnd : Option Char → Bool
  | none => true
  | some c => c = ' ' || c = '\t' || c = '\x00' || isBreak c

/-- The characters that mean something at the start of a plain scalar. -/
def isIndicator (c : Char) : Bool := "#,[]\x7b\x7d&*!|>'\"%@\x60".toList.contains c

/-! ## Shape -/

/-- What there is about a text that keeps it from some style. -/
structure Shape where
  /-- A character that would be read as an indicator. -/
  indicator : Bool
  /-- A character that needs an escape. -/
  special : Bool
  /-- A line break. -/
  multiline : Bool
  /-- A space or a break at either end. -/
  looseEnd : Bool
  spaceAtEnd : Bool
  /-- A break right before a space. -/
  breakSpace : Bool
  /-- A space right before a break. -/
  spaceBreak : Bool

/-- Every position of a text: the character before, the character, the character after. -/
def neighbors : Option Char → List Char → List (Option Char × Char × Option Char)
  | _, [] => []
  | before, c :: cs => (before, c, cs.head?) :: neighbors (some c) cs

/-- The character would be read as an indicator where it stands. -/
def isActive : Option Char × Char × Option Char → Bool
  | (none, c, after) => isIndicator c || ((c = '?' || c = ':' || c = '-') && isBlankOrEnd after)
  | (some b, c, after) => (c = ':' && isBlankOrEnd after) || (c = '#' && isBlankOrEnd (some b))

def isSpaceOrBreak (c : Char) : Bool := c = ' ' || isBreak c

def shape (s : List Char) : Shape where
  indicator :=
    "---".toList.isPrefixOf s || "...".toList.isPrefixOf s || (neighbors none s).any isActive
  special := s.any fun c => !isPrintable c
  multiline := s.any isBreak
  looseEnd := s.head?.any isSpaceOrBreak || s.getLast?.any isSpaceOrBreak
  spaceAtEnd := s.getLast?.any (· = ' ')
  breakSpace := (neighbors none s).any fun (b, c, _) => b.any isBreak && c = ' '
  spaceBreak := (neighbors none s).any fun (b, c, _) => b.any (· = ' ') && isBreak c

def Shape.allowsPlain (x : Shape) : Bool :=
  !(x.indicator || x.special || x.multiline || x.looseEnd || x.breakSpace || x.spaceBreak)

def Shape.allowsSingle (x : Shape) : Bool := !(x.special || x.breakSpace || x.spaceBreak)

def Shape.allowsLiteral (x : Shape) : Bool := !(x.special || x.spaceAtEnd || x.spaceBreak)

/-! ## Styles -/

inductive Style
  | plain
  | single
  | double
  | literal
deriving DecidableEq

/-- The style of a text: a literal block for lines, quotes for what is ambiguous, and
the next stronger style where the text does not allow the first choice. -/
def styleOf (s : String) : Style :=
  let x := shape s.toList
  if s.toList.contains '\n' then if x.allowsLiteral then .literal else .double
  else if !isAmbiguous s && x.allowsPlain then .plain
  else if x.allowsSingle then .single
  else .double

def spaces (n : Nat) : List Char := List.replicate n ' '

/-- A text whose lines after the first are indented; `atBreak` holds behind a line break.
Lines without characters stay empty. -/
def indented (indent : Nat) : Bool → List Char → List Char
  | _, [] => []
  | atBreak, c :: cs =>
    if isBreak c then c :: indented indent true cs
    else (if atBreak then spaces indent else []) ++ c :: indented indent false cs

/-- In single quotes a single quote is doubled. -/
def doubleQuotes (s : List Char) : List Char :=
  s.flatMap fun c => if c = '\'' then ['\'', '\''] else [c]

/-- In single quotes. A text that ends in a line break has its closing quote indented. -/
def singleQuoted (indent : Nat) (s : List Char) : List Char :=
  '\'' :: indented indent false (doubleQuotes s) ++
    (if s.getLast?.any isBreak then spaces indent else []) ++ ['\'']

/-- The letter that stands behind the backslash of a short escape. -/
def shortEscape? (c : Char) : Option Char :=
  match c.toNat with
  | 0x00 => some '0'
  | 0x07 => some 'a'
  | 0x08 => some 'b'
  | 0x09 => some 't'
  | 0x0A => some 'n'
  | 0x0B => some 'v'
  | 0x0C => some 'f'
  | 0x0D => some 'r'
  | 0x1B => some 'e'
  | 0x22 => some '"'
  | 0x5C => some '\\'
  | 0x85 => some 'N'
  | 0x2028 => some 'L'
  | 0x2029 => some 'P'
  | _ => none

/-- A character in double quotes. -/
def escape (c : Char) : List Char :=
  match shortEscape? c with
  | some letter => ['\\', letter]
  | none =>
    if isPrintable c then [c]
    else if c.toNat ≤ 0xFF then '\\' :: 'x' :: Text.hexDigits 2 c.toNat
    else if c.toNat ≤ 0xFFFF then '\\' :: 'u' :: Text.hexDigits 4 c.toNat
    else '\\' :: 'U' :: Text.hexDigits 8 c.toNat

def doubleQuoted (s : List Char) : List Char := '"' :: s.flatMap escape ++ ['"']

/-- The header of a literal block: the width of the indentation if the text starts with
blank space, and how many line breaks at the end belong to the text. -/
def literalHeader (s : List Char) : List Char :=
  '|' :: (if s.head?.any isSpaceOrBreak then ['2'] else []) ++
    match s.reverse with
    | [] => ['-']
    | [c] => if isBreak c then ['+'] else ['-']
    | c :: d :: _ => if !isBreak c then ['-'] else if isBreak d then ['+'] else []

def literalBlock (indent : Nat) (s : List Char) : List Char :=
  literalHeader s ++ '\n' :: indented indent true s

/-- A text, spelled so that its further lines are indented. -/
def spell (indent : Nat) (s : String) : List Char :=
  match styleOf s with
  | .plain => s.toList
  | .single => singleQuoted indent s.toList
  | .double => doubleQuoted s.toList
  | .literal => literalBlock indent s.toList

end StepLog.Yaml
