/-
  TOML keys, strings, numbers and dates.

  Each reader takes what it reads off the front of a text, or refuses the text. A string
  of several lines may end in up to two quotes of its own before the three that close it.
-/
import StepLog.Yaml.Resolve

namespace StepLog.Toml

/-- One more character at the front of what has been read. -/
def keep (c : Char) (p : List Char × List Char) : List Char × List Char := (c :: p.1, p.2)

def isBlank (c : Char) : Bool := c = ' ' || c = '\t'

def skipBlank (s : List Char) : List Char := s.dropWhile isBlank

/-- A character of a comment: anything but control characters, tabs being allowed. -/
def isText (c : Char) : Bool := c = '\t' || (0x20 ≤ c.toNat && c.toNat ≤ 0x7E) || 0x80 ≤ c.toNat

/-! ## Strings -/

/-- The character of a code point, if there is one. -/
def charOf? (n : Nat) : Option Char :=
  if n < 0xD800 ∨ (0xE000 ≤ n ∧ n ≤ 0x10FFFF) then some (Char.ofNat n) else none

/-- The character of an escape sequence behind its backslash. -/
def escaped : List Char → Option (Char × List Char)
  | 'u' :: rest => do
    let c ← (Text.digits? 16 (rest.take 4)).bind charOf?
    if rest.length < 4 then none else return (c, rest.drop 4)
  | 'U' :: rest => do
    let c ← (Text.digits? 16 (rest.take 8)).bind charOf?
    if rest.length < 8 then none else return (c, rest.drop 8)
  | 'b' :: rest => some ('\x08', rest)
  | 'f' :: rest => some ('\x0C', rest)
  | 'n' :: rest => some ('\n', rest)
  | 'r' :: rest => some ('\r', rest)
  | 't' :: rest => some ('\t', rest)
  | '"' :: rest => some ('"', rest)
  | '\\' :: rest => some ('\\', rest)
  | _ => none

/-- A string with escapes behind its opening quote. -/
def basic : Nat → List Char → Option (List Char × List Char)
  | 0, _ => none
  | _, [] => none
  | fuel + 1, c :: rest =>
    if c = '"' then some ([], rest)
    else if c = '\\' then do
      let (e, rest) ← escaped rest
      (basic fuel rest).map (keep e)
    else if isText c then (basic fuel rest).map (keep c)
    else none

/-- A string without escapes behind its opening quote. -/
def verbatim : List Char → Option (List Char × List Char)
  | [] => none
  | c :: rest =>
    if c = '\'' then some ([], rest)
    else if isText c then (verbatim rest).map (keep c)
    else none

/-- The end of a string of several lines whose next quotes are three or more: the quotes
that belong to the string, and the text behind. -/
def closing? (quote : Char) (s : List Char) : Option (List Char × List Char) :=
  let n := (s.takeWhile (· = quote)).length
  if n < 3 then none else some (List.replicate (min n 5 - 3) quote, s.drop (min n 5))

/-- The text of a line that a backslash continues on the next: blank space to its end. -/
def continues (s : List Char) : Bool :=
  match skipBlank s with
  | '\n' :: _ => true
  | '\r' :: '\n' :: _ => true
  | _ => false

/-- A string of several lines, with escapes if `quote` is a double quote. While `skipping`,
blank space and line breaks behind a backslash are left out. -/
def multiline (quote : Char) : Nat → Bool → List Char → Option (List Char × List Char)
  | 0, _, _ => none
  | _, _, [] => none
  | fuel + 1, skipping, c :: rest =>
    if skipping && (isBlank c || c = '\n') then multiline quote fuel true rest
    else if c = '\r' then
      match rest with
      | '\n' :: after =>
        if skipping then multiline quote fuel true after
        else (multiline quote fuel false after).map (keep '\n')
      | _ => none
    else if c = quote then
      match closing? quote (c :: rest) with
      | some r => some r
      | none => (multiline quote fuel false rest).map (keep c)
    else if c = '\\' ∧ quote = '"' then
      if continues rest then multiline quote fuel true rest
      else do
        let (e, rest) ← escaped rest
        (multiline quote fuel false rest).map (keep e)
    else if c = '\n' ∨ isText c then (multiline quote fuel false rest).map (keep c)
    else none

/-- A line break right behind the opening quotes does not belong to the string. -/
def dropBreak : List Char → List Char
  | '\n' :: rest => rest
  | '\r' :: '\n' :: rest => rest
  | s => s

/-- A string of one line. -/
def oneLine : List Char → Option (List Char × List Char)
  | '"' :: rest => basic (rest.length + 1) rest
  | '\'' :: rest => verbatim rest
  | _ => none

/-- A string of either kind. -/
def string : List Char → Option (List Char × List Char)
  | '"' :: '"' :: '"' :: rest =>
    let body := dropBreak rest
    multiline '"' (body.length + 1) false body
  | '\'' :: '\'' :: '\'' :: rest =>
    let body := dropBreak rest
    multiline '\'' (body.length + 1) false body
  | s => oneLine s

/-! ## Keys -/

def isBareChar (c : Char) : Bool := c.isAlphanum || c = '_' || c = '-'

/-- A bare or quoted key. -/
def simpleKey (s : List Char) : Option (List Char × List Char) :=
  if s.head?.any fun c => c = '"' || c = '\'' then oneLine s
  else
    let name := s.takeWhile isBareChar
    if name.isEmpty then none else some (name, s.dropWhile isBareChar)

/-- Keys between dots, with blank space around each. -/
def dottedKeys : Nat → List Char → Option (List String × List Char)
  | 0, _ => none
  | fuel + 1, s => do
    let (name, rest) ← simpleKey (skipBlank s)
    match skipBlank rest with
    | '.' :: more => do
      let (names, after) ← dottedKeys fuel more
      return (String.ofList name :: names, after)
    | after => return ([String.ofList name], after)

/-- How deep tables and arrays may be nested, and how long a key may be. -/
def depthLimit : Nat := 80

/-- A key of fewer parts than the limit. -/
def key (s : List Char) : Option (List String × List Char) :=
  (dottedKeys (s.length + 1) s).filter fun k => decide (k.1.length < depthLimit)

/-! ## Numbers -/

/-- Digits of a kind behind a first one; an underscore may stand between two of them. -/
def moreDigits (isDigit : Char → Bool) : List Char → Option (List Char × List Char)
  | [] => some ([], [])
  | [c] => if c = '_' then none else if isDigit c then some ([c], []) else some ([], [c])
  | c :: d :: rest =>
    if c = '_' then if isDigit d then (moreDigits isDigit rest).map (keep d) else none
    else if isDigit c then (moreDigits isDigit (d :: rest)).map (keep c)
    else some ([], c :: d :: rest)

/-- One or more digits of a kind. -/
def digitRun (isDigit : Char → Bool) : List Char → Option (List Char × List Char)
  | [] => none
  | c :: rest => if isDigit c then (moreDigits isDigit rest).map (keep c) else none

/-- A whole number: a zero, or digits that start with another. -/
def whole : List Char → Option (List Char × List Char)
  | '0' :: rest => some (['0'], rest)
  | s => digitRun Char.isDigit s

/-- The text behind a sign, if there is one, and whether it is a minus sign. -/
def sign : List Char → Bool × List Char
  | '-' :: rest => (true, rest)
  | '+' :: rest => (false, rest)
  | s => (false, s)

/-- The digits of a fraction, if there is one. -/
def fraction : List Char → Option (List Char × List Char)
  | '.' :: rest => digitRun Char.isDigit rest
  | s => some ([], s)

/-- The value of an exponent, zero if there is none. -/
def exponent : List Char → Option (Int × List Char)
  | [] => some (0, [])
  | c :: rest =>
    if c = 'e' ∨ c = 'E' then
      let (negative, digits) := sign rest
      (digitRun Char.isDigit digits).map fun p =>
        (if negative then -(Text.digitsValue 10 p.1 : Int) else Text.digitsValue 10 p.1, p.2)
    else some (0, c :: rest)

/-- The text behind a decimal number. A fraction or an exponent makes it a floating-point
number, which may be too small but not too great; an integer has 64 bits. -/
def decimal (s : List Char) : Option (List Char) := do
  let (negative, rest) := sign s
  let (digits, afterWhole) ← whole rest
  let (decimals, afterFraction) ← fraction afterWhole
  let (e, after) ← exponent afterFraction
  if after.length = afterWhole.length then
    let n := Text.digitsValue 10 digits
    if n ≤ (if negative then Nat.pow 2 63 else Nat.pow 2 63 - 1) then return after else none
  else
    let x : Yaml.Scientific := ⟨digits ++ decimals, e - (decimals.length : Int)⟩
    if negative || x.isFinite then return after else none

/-- The text behind an integer in another base. -/
def based : List Char → Option (List Char)
  | '0' :: c :: rest => do
    let base ← Yaml.baseOf? c
    let (digits, after) ← digitRun (Text.isDigitIn base) rest
    if Text.digitsValue base digits < Nat.pow 2 63 then return after else none
  | _ => none

/-- The text behind a word, if the word comes next. -/
def afterWord (word : String) (s : List Char) : Option (List Char) :=
  if word.toList.isPrefixOf s then some (s.drop word.length) else none

/-- The text behind infinity or the value that is no number. -/
def specialNumber (s : List Char) : Option (List Char) :=
  let rest := (sign s).2
  (afterWord "inf" rest).or (afterWord "nan" rest)

/-- The text behind a number. -/
def number (s : List Char) : Option (List Char) :=
  match s with
  | '0' :: c :: _ =>
    if (Yaml.baseOf? c).isSome then based s else decimal s
  | _ => (decimal s).or (specialNumber s)

/-! ## Dates -/

/-- A number of so many digits, within bounds. -/
def fixed (width low high : Nat) (s : List Char) : Option (Nat × List Char) :=
  match Text.digits? 10 (s.take width) with
  | some n => if width ≤ s.length ∧ low ≤ n ∧ n ≤ high then some (n, s.drop width) else none
  | none => none

def afterChar (c : Char) : List Char → Option (List Char)
  | [] => none
  | d :: rest => if d = c then some rest else none

def isLeap (year : Nat) : Bool := year % 4 == 0 && (year % 100 != 0 || year % 400 == 0)

def daysIn (year month : Nat) : Nat :=
  if month = 2 then if isLeap year then 29 else 28
  else if month = 4 ∨ month = 6 ∨ month = 9 ∨ month = 11 then 30
  else 31

/-- The text behind a date. -/
def date (s : List Char) : Option (List Char) := do
  let (year, s) ← fixed 4 0 9999 s
  let (month, s) ← fixed 2 1 12 (← afterChar '-' s)
  let (_, s) ← fixed 2 1 (daysIn year month) (← afterChar '-' s)
  return s

/-- The text behind the fraction of a second, if there is one. -/
def secondFraction : List Char → List Char
  | '.' :: c :: rest => if c.isDigit then rest.dropWhile Char.isDigit else '.' :: c :: rest
  | s => s

/-- The text behind a time of day. -/
def time (s : List Char) : Option (List Char) := do
  let (_, s) ← fixed 2 0 23 s
  let (_, s) ← fixed 2 0 59 (← afterChar ':' s)
  let (_, s) ← fixed 2 0 60 (← afterChar ':' s)
  return secondFraction s

/-- The text behind an offset from universal time, if there is one. -/
def offset (s : List Char) : List Char :=
  match s with
  | [] => []
  | c :: rest =>
    if c = 'Z' ∨ c = 'z' then rest
    else if c = '+' ∨ c = '-' then
      (do
        let (_, r) ← fixed 2 0 23 rest
        let (_, r) ← fixed 2 0 59 (← afterChar ':' r)
        return r).getD s
    else s

/-- The text behind a date, a time, or both. -/
def datetime (s : List Char) : Option (List Char) :=
  match date s with
  | none => time s
  | some [] => some []
  | some (c :: rest) =>
    if c = 'T' ∨ c = 't' ∨ c = ' ' then some (((time rest).map offset).getD (c :: rest))
    else some (c :: rest)

end StepLog.Toml
