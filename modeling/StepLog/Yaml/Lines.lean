/-
  The lexer of key/value text.

  It reads block-style YAML line by line: keys, sequence dashes, scalars, comments and
  block scalars; a flow collection stays one scalar. The only state carried from line to
  line is the owner of an open block scalar, the indentation of the line that opened it.
  The block goes on over blank lines and lines that are indented further.
-/
import StepLog.Token
import StepLog.Text.Characters
import StepLog.Text.Lines

namespace StepLog.Yaml

/-- A line cut into indentation, the text after it and the line ending. -/
structure Line where
  indent : List Char
  text : List Char
  ending : List Char

/-- Takes the line ending off the end of a line: a line feed, a carriage return before
it, or a carriage return at the end. -/
def splitEnding (raw : List Char) : List Char × List Char :=
  let body := Text.dropEndIf '\r' (Text.dropEndIf '\n' raw)
  (body, raw.drop body.length)

def Line.ofChars (raw : List Char) : Line :=
  let b := splitEnding raw
  ⟨b.1.takeWhile (· = ' '), b.1.dropWhile (· = ' '), b.2⟩

/-! ## Keys -/

/-- The key at the front of a text, up to a colon that ends the text or stands before a
space. A colon between quotes ends no key, and a comment holds none. `quote` is the open
quote, `before` the character before the text. -/
def keyFrom (quote before : Option Char) : List Char → Option (List Char × List Char)
  | [] => none
  | [c] => if quote = none ∧ c = ':' then some ([], [c]) else none
  | c :: d :: ds =>
    match quote with
    | some q =>
      if q = '"' ∧ c = '\\' then
        (keyFrom quote (some d) ds).map fun k => (c :: d :: k.1, k.2)
      else
        (keyFrom (if c = q then none else quote) (some c) (d :: ds)).map fun k => (c :: k.1, k.2)
    | none =>
      if c = '"' ∨ c = '\'' then
        (keyFrom (some c) (some c) (d :: ds)).map fun k => (c :: k.1, k.2)
      else if c = '#' ∧ before = some ' ' then none
      else if c = ':' ∧ d = ' ' then some ([], c :: d :: ds)
      else (keyFrom none (some c) (d :: ds)).map fun k => (c :: k.1, k.2)

/-- The key that starts a line's text, and the text from its colon on. -/
def key? (text : List Char) : Option (List Char × List Char) :=
  match text with
  | [] => none
  | c :: _ => if c = '\x7b' ∨ c = '[' ∨ c = '|' ∨ c = '>' then none else keyFrom none none text

/-! ## Values -/

def isIndentDigit (c : Char) : Bool := '1' ≤ c && c ≤ '9'

def isChomping (c : Char) : Bool := c = '+' || c = '-'

/-- `|` or `>`, then at most one digit and one chomping sign, in either order. -/
def isBlockIndicator : List Char → Bool
  | [] => false
  | c :: cs =>
    (c = '|' || c = '>') &&
    match cs with
    | [] => true
    | [a] => isChomping a || isIndentDigit a
    | [a, b] => (isChomping a && isIndentDigit b) || (isIndentDigit a && isChomping b)
    | _ => false

/-- The text before the first space that a `#` follows, and the rest from that space on. -/
def beforeComment? : List Char → Option (List Char × List Char)
  | [] => none
  | c :: cs =>
    if c = ' ' ∧ cs.head? = some '#' then some ([], c :: cs)
    else (beforeComment? cs).map fun p => (c :: p.1, p.2)

/-- The tokens of one line without its ending, and whether it opens a block scalar. -/
structure LineTokens where
  tokens : List Token
  opensBlock : Bool

/-- The tokens of a value: a comment, a block indicator with or without a comment, or a
scalar. -/
def valueTokens (text : List Char) : LineTokens :=
  if text.head? = some '#' then ⟨Token.of? .comment text, false⟩
  else match beforeComment? text with
    | none =>
      if isBlockIndicator text then ⟨Token.of? .delimiter text, true⟩
      else ⟨Token.of? .scalar text, false⟩
    | some (front, rest) =>
      let indicator := Text.trimEnd front
      if isBlockIndicator indicator then
        ⟨Token.of? .delimiter indicator ++
          Token.of? .whitespace (front.drop indicator.length ++ rest.take 1) ++
          Token.of? .comment (rest.drop 1), true⟩
      else ⟨Token.of? .scalar text, false⟩

/-- The tokens of the text behind the sequence dashes of a line. -/
def entryTokens (text : List Char) : LineTokens :=
  if text.head? = some '#' then ⟨Token.of? .comment text, false⟩
  else match key? text with
    | none => valueTokens text
    | some (k, rest) =>
      let after := rest.drop 1
      let v := valueTokens (after.dropWhile (· = ' '))
      ⟨Token.of? .key k ++ Token.of? .delimiter (rest.take 1) ++
        Token.of? .whitespace (after.takeWhile (· = ' ')) ++ v.tokens, v.opensBlock⟩

/-- The tokens of the sequence dashes at the front, and the text behind them. -/
def dashes : List Char → List Token × List Char
  | [] => ([], [])
  | c :: cs =>
    if c = '-' ∧ (cs = [] ∨ cs.head? = some ' ') then
      let d := dashes (cs.dropWhile (· = ' '))
      (Token.of? .delimiter [c] ++ Token.of? .whitespace (cs.takeWhile (· = ' ')) ++ d.1, d.2)
    else ([], c :: cs)
termination_by s => s.length
decreasing_by
  have e := congrArg List.length (List.takeWhile_append_dropWhile (p := (· = ' ')) (l := cs))
  simp only [List.length_append] at e
  simp only [List.length_cons]
  omega

/-- The tokens of a line outside any block scalar, its ending left off. -/
def Line.tokens (line : Line) : LineTokens :=
  let indent := Token.of? .whitespace line.indent
  if line.text = "---".toList ∨ line.text = "...".toList then
    ⟨indent ++ Token.of? .delimiter line.text, false⟩
  else
    let d := dashes line.text
    let e := entryTokens d.2
    ⟨indent ++ d.1 ++ e.tokens, e.opensBlock⟩

/-! ## Blocks -/

/-- A line that an open block scalar of a line with indentation `owner` takes in. -/
def Line.inBlock (owner : Nat) (line : Line) : Bool :=
  Text.allBlank (line.indent ++ line.text) || owner < line.indent.length

/-- The tokens of lines from number `number` on; `owner` is the indentation of the line
that opened the current block scalar. -/
def lineTokens (number : Nat) (owner : Option Nat) : List (List Char) → Except LexFault (List Token)
  | [] => .ok []
  | raw :: raws =>
    let line := Line.ofChars raw
    let ending := Token.of? .whitespace line.ending
    if owner.any line.inBlock then
      (lineTokens (number + 1) owner raws).map
        (Token.of? .literal (line.indent ++ line.text) ++ ending ++ ·)
    else if line.text.head? = some '\t' then .error ⟨"yaml", .tabIndent number⟩
    else
      let here := line.tokens
      let owner' := if here.opensBlock then some line.indent.length else none
      (lineTokens (number + 1) owner' raws).map (here.tokens ++ ending ++ ·)

/-- The key/value lexer refuses NUL characters and tabs in indentation. -/
def lexer : Lexer := .rejectingNul "yaml" fun s => lineTokens 1 none (Text.cutLines s)

end StepLog.Yaml
