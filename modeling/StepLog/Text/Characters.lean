/-
  Blank characters and digits.

  `isBlank` is the Unicode property White_Space, written as its ranges. Trimming takes blank
  characters off the ends of a text and leaves everything between them; both halves are a
  `dropWhile`. Digits stand for a number in a base up to 36, in which letters of either case
  go on behind nine.
-/

namespace StepLog.Text

/-! ## Blank characters -/

/-- The characters with the Unicode property White_Space. -/
def isBlank (c : Char) : Bool :=
  let n := c.toNat
  (0x09 ≤ n && n ≤ 0x0D) || n == 0x20 || n == 0x85 || n == 0xA0 || n == 0x1680 ||
  (0x2000 ≤ n && n ≤ 0x200A) || n == 0x2028 || n == 0x2029 || n == 0x202F ||
  n == 0x205F || n == 0x3000

/-- Takes from the end of `s` the longest run of characters that satisfy `p`. -/
def dropEndWhile (p : Char → Bool) (s : List Char) : List Char :=
  (s.reverse.dropWhile p).reverse

/-- Takes blank characters off the end. -/
def trimEnd (s : List Char) : List Char := dropEndWhile isBlank s

/-- Takes blank characters off both ends. -/
def trim (s : List Char) : List Char := trimEnd (s.dropWhile isBlank)

/-- Nothing but blank characters. -/
def allBlank (s : List Char) : Bool := s.all isBlank

/-! ## Digits -/

/-- The value of a digit or letter, `a` and `A` being ten. -/
def digitValue (c : Char) : Nat :=
  if c.isDigit then c.toNat - '0'.toNat
  else if c.isLower then c.toNat - 'a'.toNat + 10
  else if c.isUpper then c.toNat - 'A'.toNat + 10
  else 36

def isDigitIn (base : Nat) (c : Char) : Bool := digitValue c < base

/-- The number that digits stand for in a base, the most significant digit first. -/
def digitsValue (base : Nat) (digits : List Char) : Nat :=
  digits.foldl (fun n c => base * n + digitValue c) 0

/-- The number of one or more digits and nothing else. -/
def digits? (base : Nat) (s : List Char) : Option Nat :=
  if !s.isEmpty && s.all (isDigitIn base) then some (digitsValue base s) else none

def hexDigit (n : Nat) : Char := "0123456789ABCDEF".toList.getD (n % 16) '0'

/-- The last `width` hexadecimal digits of a number. -/
def hexDigits : Nat → Nat → List Char
  | 0, _ => []
  | width + 1, n => hexDigits width (n / 16) ++ [hexDigit n]

end StepLog.Text
