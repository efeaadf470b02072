/-
  What a plain scalar stands for.

  A scalar without quotes may read as null, as a boolean or as a number. A text that
  does is written with quotes, and so is a text of digits behind a leading zero,
  which readers take for different things.
-/
import StepLog.Text.Characters

namespace StepLog.Yaml

def isNull (s : String) : Bool := ["", "~", "null", "Null", "NULL"].contains s

def isBoolean (s : String) : Bool :=
  ["true", "True", "TRUE", "false", "False", "FALSE"].contains s

/-! ## Integers in another base -/

/-- The base that the letter behind a zero names. -/
def baseOf? (c : Char) : Option Nat :=
  if c = 'x' then some 16 else if c = 'o' then some 8 else if c = 'b' then some 2 else none

/-- `0x`, `0o` or `0b` and digits, the number at most `most`. -/
def isBased (most : Nat) : List Char → Bool
  | '0' :: c :: digits =>
    (baseOf? c).any fun base => (Text.digits? base digits).any fun n => decide (n ≤ most)
  | _ => false

/-- An integer with a base, of 128 bits: without sign up to the greatest unsigned one, or
with a minus sign. -/
def isBasedInteger (s : List Char) : Bool :=
  match s with
  | '-' :: rest => isBased (Nat.pow 2 127) rest
  | '+' :: rest => isBased (Nat.pow 2 128 - 1) rest
  | _ => isBased (Nat.pow 2 128 - 1) s

/-! ## Decimal numbers -/

/-- The text behind one sign, if there is one. -/
def unsigned : List Char → List Char
  | '+' :: rest => rest
  | '-' :: rest => rest
  | s => s

/-- A number `mantissa * 10 ^ exponent`. -/
structure Scientific where
  mantissa : List Char
  exponent : Int

/-- The exponent at the end of a number: nothing, or `e`, a sign and digits. -/
def exponent? : List Char → Option Int
  | [] => some 0
  | c :: rest =>
    if c = 'e' ∨ c = 'E' then
      (Text.digits? 10 (unsigned rest)).map fun n =>
        if rest.head? = some '-' then -(n : Int) else (n : Int)
    else none

/-- Digits, with or without a point, and an exponent. -/
def scientific? (s : List Char) : Option Scientific :=
  let whole := s.takeWhile Char.isDigit
  let rest := s.dropWhile Char.isDigit
  let (fraction, rest) := match rest with
    | '.' :: r => (r.takeWhile Char.isDigit, r.dropWhile Char.isDigit)
    | r => ([], r)
  if whole.isEmpty && fraction.isEmpty then none
  else (exponent? rest).map fun e => ⟨whole ++ fraction, e - (fraction.length : Int)⟩

/-- Rounds to a finite 64-bit number: it is below the middle between the greatest of
them and the next power of two. -/
def Scientific.isFinite (x : Scientific) : Bool :=
  let digits := x.mantissa.dropWhile (· = '0')
  let size := (digits.length : Int) + x.exponent
  if digits.isEmpty || size ≤ 308 then true
  else if 310 < size then false
  else decide (Text.digitsValue 10 digits * Nat.pow 10 x.exponent.toNat <
    (Nat.pow 2 1024 - Nat.pow 2 970) * Nat.pow 10 (-x.exponent).toNat)

/-- The names of infinity and of the value that is no number. -/
def isSpecialFloat (s : String) : Bool :=
  [".inf", ".Inf", ".INF", "+.inf", "+.Inf", "+.INF", "-.inf", "-.Inf", "-.INF",
   ".nan", ".NaN", ".NAN"].contains s

/-- A sign at most, a zero, and at least one more digit. -/
def hasLeadingZero (s : List Char) : Bool :=
  match unsigned s with
  | '0' :: c :: cs => (c :: cs).all Char.isDigit
  | _ => false

def isNumber (s : String) : Bool :=
  isBasedInteger s.toList || isSpecialFloat s ||
  (scientific? (unsigned s.toList)).any Scientific.isFinite

/-- Without quotes the text would, or might, not be read as this text. -/
def isAmbiguous (s : String) : Bool :=
  isNull s || isBoolean s || isNumber s || hasLeadingZero s.toList

end StepLog.Yaml
