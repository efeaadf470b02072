/-
  A place in a YAML text.

  A cursor holds the text that is left and where it stands: how many characters from the
  start, on which line and in which column. Line breaks come in several spellings; all but
  the line and paragraph separators are read as line feeds.
-/
import StepLog.Yaml.Scalar

namespace StepLog.Yaml

structure Cursor where
  rest : List Char
  index : Nat
  line : Nat
  column : Nat

def isBlank (c : Char) : Bool := c = ' ' || c = '\t'

namespace Cursor

def start (s : List Char) : Cursor := ⟨s, 0, 0, 0⟩

def peek? (c : Cursor) : Option Char := c.rest.head?

/-- Goes forward by `n` characters of one line. -/
def forward (c : Cursor) (n : Nat) : Cursor :=
  { c with rest := c.rest.drop n, index := c.index + n, column := c.column + n }

/-- Goes forward to where `rest` is left of the line. -/
def goTo (c : Cursor) (rest : List Char) : Cursor := c.forward (c.rest.length - rest.length)

/-- Goes over the characters that satisfy `p`. -/
def skipWhile (p : Char → Bool) (c : Cursor) : Cursor := c.forward (c.rest.takeWhile p).length

def nextLine (c : Cursor) (rest : List Char) : Cursor :=
  ⟨rest, c.index + (c.rest.length - rest.length), c.line + 1, 0⟩

/-- Reads a line break; none at the end of the text or elsewhere. -/
def lineBreak (c : Cursor) : List Char × Cursor :=
  match c.rest with
  | '\r' :: '\n' :: rest => (['\n'], c.nextLine rest)
  | x :: rest =>
    if x = '\u2028' || x = '\u2029' then ([x], c.nextLine rest)
    else if isBreak x then (['\n'], c.nextLine rest)
    else ([], c)
  | [] => ([], c)

/-- At a line break or at the end. -/
def atLineEnd (c : Cursor) : Bool := c.peek?.all isBreak

/-- The character `n` places ahead is blank, a line break or the end. -/
def isGapAt (c : Cursor) (n : Nat) : Bool := isBlankOrEnd c.rest[n]?

/-- At a mark of three characters that stands alone at the start of a line. -/
def atMark (c : Cursor) (mark : String) : Bool :=
  c.column == 0 && mark.toList.isPrefixOf c.rest && c.isGapAt 3

/-- At the start or the end of a document. -/
def atDocumentMark (c : Cursor) : Bool := c.atMark "---" || c.atMark "..."

/-- Goes over blank space, a comment and the end of the line; none if anything else stands
there. -/
def restOfLine? (c : Cursor) : Option Cursor :=
  let c := c.skipWhile isBlank
  let c := if c.peek? = some '#' then c.skipWhile (!isBreak ·) else c
  if c.atLineEnd then some c.lineBreak.2 else none

end Cursor

/-! ## Gaps between words -/

/-- The space between two words of a scalar: blank space on one line, or line breaks. -/
structure Gap where
  blanks : List Char
  /-- The first line break, if there is one. -/
  first : List Char
  /-- The line breaks behind the first. -/
  more : List Char
  broken : Bool

def Gap.none : Gap := ⟨[], [], [], false⟩

/-- What a gap stands for: a single line break is folded into a space, of several the first
is left out. -/
def Gap.text (g : Gap) : List Char :=
  if !g.broken then g.blanks
  else if g.first = ['\n'] then if g.more.isEmpty then [' '] else g.more
  else g.first ++ g.more

/-- Reads a gap. A tab before column `indent` of a further line is an error. -/
def Cursor.gap (indent : Int) : Nat → Gap → Cursor → Option (Gap × Cursor)
  | 0, _, _ => Option.none
  | fuel + 1, g, c =>
    match c.peek? with
    | Option.none => some (g, c)
    | some x =>
      if isBlank x then
        if g.broken && x = '\t' && (c.column : Int) < indent then Option.none
        else
          Cursor.gap indent fuel (if g.broken then g else { g with blanks := g.blanks ++ [x] })
            (c.forward 1)
      else if isBreak x then
        let b := c.lineBreak
        if g.broken then Cursor.gap indent fuel { g with more := g.more ++ b.1 } b.2
        else Cursor.gap indent fuel ⟨[], b.1, g.more, true⟩ b.2
      else some (g, c)

end StepLog.Yaml
