/-
  JSON texts.

  `Value.read?` accepts one value with blank space around it. What matters about a value is
  kept, the strings and the structure; numbers are checked and not kept. A string may spell
  half of a surrogate pair. Such a string stands for no text, and that is an error only for
  who asks for the text.
-/
import StepLog.Text.Characters

namespace StepLog.Json

inductive Value
  | null
  | boolean
  | number
  /-- A string, with its text if it has one. -/
  | text (s : Option String)
  | array (items : List Value)
  | object (entries : List (Option String × Value))

/-! ## Strings -/

/-- A part of a string: a character, or a 16-bit unit by its escape. -/
inductive Piece
  | char (c : Char)
  | unit (n : Nat)

/-- The character of a short escape. -/
def escape? (c : Char) : Option Char :=
  match c with
  | '"' => some '"'
  | '\\' => some '\\'
  | '/' => some '/'
  | 'b' => some '\x08'
  | 'f' => some '\x0C'
  | 'n' => some '\n'
  | 'r' => some '\r'
  | 't' => some '\t'
  | _ => none

/-- The parts of a string behind its opening quote, and the text behind the closing one. -/
def pieces : List Char → Option (List Piece × List Char)
  | [] => none
  | '"' :: rest => some ([], rest)
  | '\\' :: 'u' :: a :: b :: c :: d :: rest => do
    let n ← Text.digits? 16 [a, b, c, d]
    let (ps, after) ← pieces rest
    return (.unit n :: ps, after)
  | '\\' :: c :: rest => do
    let e ← escape? c
    let (ps, after) ← pieces rest
    return (.char e :: ps, after)
  | c :: rest =>
    if c.toNat < 0x20 then none
    else do
      let (ps, after) ← pieces rest
      return (.char c :: ps, after)

def isHighSurrogate (n : Nat) : Bool := 0xD800 ≤ n && n ≤ 0xDBFF

def isLowSurrogate (n : Nat) : Bool := 0xDC00 ≤ n && n ≤ 0xDFFF

/-- The text of the parts of a string, unless half of a surrogate pair is among them. -/
def joined : List Piece → Option (List Char)
  | [] => some []
  | .char c :: ps => (joined ps).map (c :: ·)
  | .unit n :: ps =>
    if isLowSurrogate n then none
    else if isHighSurrogate n then
      match ps with
      | .unit m :: rest =>
        if isLowSurrogate m then
          (joined rest).map (Char.ofNat (0x10000 + (n - 0xD800) * 0x400 + (m - 0xDC00)) :: ·)
        else none
      | _ => none
    else (joined ps).map (Char.ofNat n :: ·)

/-! ## Numbers and blank space -/

def isBlank (c : Char) : Bool := c = ' ' || c = '\t' || c = '\n' || c = '\r'

def skipBlank (s : List Char) : List Char := s.dropWhile isBlank

/-- The text behind one or more digits. -/
def afterDigits (s : List Char) : Option (List Char) :=
  if s.head?.any Char.isDigit then some (s.dropWhile Char.isDigit) else none

/-- The text behind the whole part of a number: a zero, or digits that start otherwise. -/
def afterWhole : List Char → Option (List Char)
  | '0' :: rest => if rest.head?.any Char.isDigit then none else some rest
  | s => afterDigits s

def afterFraction : List Char → Option (List Char)
  | '.' :: rest => afterDigits rest
  | s => some s

def afterExponent : List Char → Option (List Char)
  | c :: rest =>
    if c = 'e' ∨ c = 'E' then
      match rest with
      | '+' :: digits => afterDigits digits
      | '-' :: digits => afterDigits digits
      | digits => afterDigits digits
    else some (c :: rest)
  | [] => some []

/-- The text behind a number without sign. -/
def afterNumber (s : List Char) : Option (List Char) :=
  ((afterWhole s).bind afterFraction).bind afterExponent

/-! ## Values -/

/-- The text behind a word, if the word comes next. -/
def afterWord (word : String) (s : List Char) : Option (List Char) :=
  if word.toList.isPrefixOf s then some (s.drop word.length) else none

mutual

/-- The value at the front and the text behind it; `fuel` bounds the calls. -/
def value : Nat → List Char → Option (Value × List Char)
  | 0, _ => none
  | fuel + 1, s =>
    match skipBlank s with
    | '"' :: rest => do
      let (ps, after) ← pieces rest
      return (.text ((joined ps).map String.ofList), after)
    | '[' :: rest =>
      match skipBlank rest with
      | ']' :: after => some (.array [], after)
      | _ => do
        let (items, after) ← elements fuel rest
        return (.array items, after)
    | '\x7b' :: rest =>
      match skipBlank rest with
      | '\x7d' :: after => some (.object [], after)
      | _ => do
        let (entries, after) ← members fuel rest
        return (.object entries, after)
    | 'n' :: rest => (afterWord "ull" rest).map (Value.null, ·)
    | 't' :: rest => (afterWord "rue" rest).map (Value.boolean, ·)
    | 'f' :: rest => (afterWord "alse" rest).map (Value.boolean, ·)
    | '-' :: rest => (afterNumber rest).map (Value.number, ·)
    | rest => (afterNumber rest).map (Value.number, ·)

/-- One or more values between commas, up to the closing bracket. -/
def elements : Nat → List Char → Option (List Value × List Char)
  | 0, _ => none
  | fuel + 1, s => do
    let (v, rest) ← value fuel s
    match skipBlank rest with
    | ',' :: more => do
      let (vs, after) ← elements fuel more
      return (v :: vs, after)
    | ']' :: after => return ([v], after)
    | _ => none

/-- One or more members between commas, up to the closing brace. -/
def members : Nat → List Char → Option (List (Option String × Value) × List Char)
  | 0, _ => none
  | fuel + 1, s =>
    match skipBlank s with
    | '"' :: start => do
      let (ps, behindKey) ← pieces start
      match skipBlank behindKey with
      | ':' :: behindColon => do
        let (v, rest) ← value fuel behindColon
        let e := ((joined ps).map String.ofList, v)
        match skipBlank rest with
        | ',' :: more => do
          let (es, after) ← members fuel more
          return (e :: es, after)
        | '\x7d' :: after => return ([e], after)
        | _ => none
      | _ => none
    | _ => none

end

/-- The value that a text is, if it is one. -/
def Value.read? (s : List Char) : Option Value :=
  match value (2 * s.length + 2) s with
  | some (v, rest) => if (skipBlank rest).isEmpty then some v else none
  | none => none

end StepLog.Json
