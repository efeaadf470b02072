/-
  Reading scalars of a YAML text: plain, in quotes, and in blocks.

  Each reader starts at the first character of a scalar and yields its text and the cursor
  behind it, or nothing if the scalar is malformed.
-/
import StepLog.Yaml.Cursor

namespace StepLog.Yaml

/-! ## Plain scalars -/

def isFlowIndicator (c : Char) : Bool := ",[]\x7b\x7d".toList.contains c

/-- A colon that ends a plain scalar stands before `next`. -/
def endsPlain (flow : Bool) (c : Char) (next : Option Char) : Bool :=
  (c = ':' && isBlankOrEnd next) || (flow && isFlowIndicator c)

/-- In a flow collection a colon may not stand right before an indicator. -/
def isStrayColon (flow : Bool) (c : Char) (next : Option Char) : Bool :=
  flow && c = ':' && next.any fun d => isFlowIndicator d || d = '?'

/-- The characters of a plain scalar up to the next gap or end. -/
def plainWord (flow : Bool) : List Char → Option (List Char × List Char)
  | [] => some ([], [])
  | c :: cs =>
    if isBlank c || isBreak c then some ([], c :: cs)
    else if isStrayColon flow c cs.head? then none
    else if endsPlain flow c cs.head? then some ([], c :: cs)
    else (plainWord flow cs).map fun p => (c :: p.1, p.2)

/-- A scalar as it was read. -/
structure ScannedScalar where
  text : List Char
  /-- The scalar ends in a line break that does not belong to it. -/
  broken : Bool
  cursor : Cursor

/-- A plain scalar. `indent` is the least column of its further lines, `text` what has been
read of it, `gap` the gap behind that. -/
def plainScalar (flow : Bool) (indent : Int) :
    Nat → List Char → Gap → Cursor → Option ScannedScalar
  | 0, _, _, _ => none
  | fuel + 1, text, gap, c =>
    if c.atDocumentMark || c.peek? = some '#' then some ⟨text, gap.broken, c⟩
    else do
      let (word, rest) ← plainWord flow c.rest
      let here := c.goTo rest
      let text := if word.isEmpty then text else text ++ gap.text ++ word
      let gap := if word.isEmpty then gap else Gap.none
      if !here.peek?.any fun x => isBlank x || isBreak x then return ⟨text, gap.broken, here⟩
      else
        let (gap, behind) ← here.gap indent (here.rest.length + 1) gap
        if !flow && (behind.column : Int) < indent then return ⟨text, gap.broken, behind⟩
        else plainScalar flow indent fuel text gap behind

/-! ## Quoted scalars -/

/-- The character of a short escape in double quotes. -/
def unescape? (c : Char) : Option Char :=
  match c with
  | '0' => some '\x00'
  | 'a' => some '\x07'
  | 'b' => some '\x08'
  | 't' => some '\t'
  | '\t' => some '\t'
  | 'n' => some '\n'
  | 'v' => some '\x0B'
  | 'f' => some '\x0C'
  | 'r' => some '\r'
  | 'e' => some '\x1B'
  | ' ' => some ' '
  | '"' => some '"'
  | '/' => some '/'
  | '\\' => some '\\'
  | 'N' => some '\u0085'
  | '_' => some '\u00A0'
  | 'L' => some '\u2028'
  | 'P' => some '\u2029'
  | _ => none

/-- How many hexadecimal digits stand behind the letter of an escape. -/
def escapeWidth? (c : Char) : Option Nat :=
  match c with
  | 'x' => some 2
  | 'u' => some 4
  | 'U' => some 8
  | _ => none

/-- The character of the escape sequence behind a backslash, and the text behind it. -/
def escaped : List Char → Option (Char × List Char)
  | [] => none
  | c :: cs =>
    match escapeWidth? c with
    | none => (unescape? c).map fun x => (x, cs)
    | some width => do
      let n ← Text.digits? 16 (cs.take width)
      if cs.length < width ∨ (0xD800 ≤ n ∧ n ≤ 0xDFFF) ∨ 0x10FFFF < n then none
      else return (Char.ofNat n, cs.drop width)

/-- How a stretch of a quoted scalar ends. -/
inductive QuotedEnd
  /-- At the closing quote, a gap or the end of the text. -/
  | plain
  /-- Behind a line break with a backslash before it. -/
  | continued

/-- The characters of a quoted scalar up to the next gap or end. -/
def quotedWord (quote : Char) : Nat → Cursor → Option (List Char × QuotedEnd × Cursor)
  | 0, _ => none
  | fuel + 1, c =>
    match c.rest with
    | [] => some ([], .plain, c)
    | x :: rest =>
      if isBlank x || isBreak x then some ([], .plain, c)
      else if x = quote then
        if quote = '\'' ∧ rest.head? = some '\'' then
          (quotedWord quote fuel (c.forward 2)).map fun p => ('\'' :: p.1, p.2)
        else some ([], .plain, c)
      else if quote = '"' ∧ x = '\\' then
        if rest.head?.any isBreak then some ([], .continued, (c.forward 1).lineBreak.2)
        else do
          let (e, after) ← escaped rest
          (quotedWord quote fuel (c.goTo after)).map fun p => (e :: p.1, p.2)
      else (quotedWord quote fuel (c.forward 1)).map fun p => (x :: p.1, p.2)

/-- A quoted scalar behind its opening quote, up to and with the closing one. -/
def quotedScalar (quote : Char) : Nat → List Char → Cursor → Option ScannedScalar
  | 0, _, _ => none
  | fuel + 1, text, c =>
    if c.atDocumentMark || c.rest.isEmpty then none
    else do
      let (word, stop, here) ← quotedWord quote (c.rest.length + 1) c
      let gap : Gap := match stop with
        | .plain => .none
        | .continued => { Gap.none with broken := true }
      if here.peek? = some quote then return ⟨text ++ word, false, here.forward 1⟩
      else
        let (gap, behind) ← here.gap 0 (here.rest.length + 1) gap
        quotedScalar quote fuel (text ++ word ++ gap.text) behind

/-! ## Block scalars -/

/-- What becomes of the line breaks at the end of a block scalar. -/
inductive Chomping
  | strip
  | clip
  | keep
deriving DecidableEq

def chompingOf? (c : Char) : Option Chomping :=
  if c = '+' then some .keep else if c = '-' then some .strip else none

/-- The width of the indentation that a digit gives; a zero gives none. -/
def increment? (c : Char) : Option Nat :=
  if c.isDigit ∧ c ≠ '0' then some (Text.digitValue c) else none

/-- The header behind `|` or `>`: chomping and a digit in either order. -/
def blockHeader : List Char → Option (Chomping × Option Nat × List Char)
  | [] => some (.clip, none, [])
  | c :: cs =>
    match chompingOf? c with
    | some chomping =>
      match cs with
      | d :: ds =>
        if d.isDigit then (increment? d).map fun n => (chomping, some n, ds)
        else some (chomping, none, cs)
      | [] => some (chomping, none, [])
    | none =>
      if c.isDigit then (increment? c).map fun n =>
        match cs with
        | d :: ds =>
          match chompingOf? d with
          | some chomping => (chomping, some n, ds)
          | none => (.clip, some n, cs)
        | [] => (.clip, some n, [])
      else some (.clip, none, c :: cs)

/-- The empty lines at the front of a block, the greatest column that they reach, and the
cursor at the first line that is not empty. An indentation of zero is still unknown. -/
def emptyLines (indent : Nat) : Nat → Nat → Cursor → Option (List Char × Nat × Cursor)
  | 0, _, _ => none
  | fuel + 1, most, c =>
    let blanks := (c.rest.takeWhile (· = ' ')).length
    let c := c.forward (if indent = 0 then blanks else min blanks (indent - c.column))
    let most := max most c.column
    if (indent == 0 || c.column < indent) && c.peek? = some '\t' then none
    else if c.peek?.any isBreak then
      let b := c.lineBreak
      (emptyLines indent fuel most b.2).map fun p => (b.1 ++ p.1, p.2)
    else some ([], most, c)

/-- The lines of a block scalar behind its first empty lines. `ended` is the line break of
the line before, `empty` the empty lines behind it; `blankStart` tells that the line before
starts with blank space. -/
def blockLines (literal : Bool) (indent : Nat) :
    Nat → Bool → List Char → List Char → List Char → Cursor →
      Option (List Char × List Char × List Char × Cursor)
  | 0, _, _, _, _, _ => none
  | fuel + 1, blankStart, text, ended, empty, c =>
    if c.column ≠ indent ∨ c.rest.isEmpty then some (text, ended, empty, c)
    else do
      let blankHere := c.peek?.any isBlank
      let folded := !literal && ended == ['\n'] && !blankStart && !blankHere
      let joint := if folded then if empty.isEmpty then [' '] else [] else ended
      let line := c.rest.takeWhile (!isBreak ·)
      let b := (c.forward line.length).lineBreak
      let (more, _, behind) ← emptyLines indent (b.2.rest.length + 1) 0 b.2
      blockLines literal indent fuel blankHere (text ++ joint ++ empty ++ line) b.1 more behind

/-- A block scalar behind its `|` or `>`; `outer` is the indentation around it. -/
def blockScalar (literal : Bool) (outer : Int) (c : Cursor) : Option ScannedScalar := do
  let (chomping, increment, rest) ← blockHeader c.rest
  let c ← (c.goTo rest).restOfLine?
  let given := match increment with
    | some n => (max outer 0).toNat + n
    | none => 0
  let (empty, most, c) ← emptyLines given (c.rest.length + 1) 0 c
  let indent := if given = 0 then max (max most (outer + 1).toNat) 1 else given
  let (text, ended, empty, c) ←
    blockLines literal indent (c.rest.length + 1) false [] [] empty c
  let tail := match chomping with
    | .strip => []
    | .clip => ended
    | .keep => ended ++ empty
  return ⟨text ++ tail, false, c⟩

end StepLog.Yaml
