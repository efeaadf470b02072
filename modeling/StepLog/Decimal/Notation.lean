/-
  Writing decimals.

  A `Notation` fixes where positional writing ends; what is not positional has one digit
  before the point and an exponent behind the letter `e`.
-/
import StepLog.Decimal.Shortest

namespace StepLog.Decimal

/-- The choices of a number format. Exponents are those of the leading digit. -/
structure Notation where
  /-- The least exponent that is written positionally. -/
  positionalFrom : Int
  /-- The greatest exponent that is written positionally. -/
  positionalTo : Int
  nan : String
  infinity : String

/-- `n` copies of the digit zero. -/
def zeros (n : Nat) : String := String.ofList (List.replicate n '0')

/-- The text of a positive decimal. A whole number gets the fraction `.0`. -/
def Notation.layout (f : Notation) (d : Dec) : String :=
  let digits := toString d.digits
  let lead := d.exponent + (digits.length : Int) - 1
  if f.positionalFrom ≤ lead ∧ lead ≤ f.positionalTo then
    if 0 ≤ d.exponent then digits ++ zeros d.exponent.toNat ++ ".0"
    else if 0 ≤ lead then
      let whole := (lead + 1).toNat
      String.ofList (digits.toList.take whole) ++ "." ++ String.ofList (digits.toList.drop whole)
    else "0." ++ zeros (-lead - 1).toNat ++ digits
  else
    let fraction := digits.toList.drop 1
    String.ofList (digits.toList.take 1) ++
      (if fraction.isEmpty then "" else "." ++ String.ofList fraction) ++ "e" ++ toString lead

/-- The text of a 64-bit floating-point number. -/
def Notation.write (f : Notation) (bits : UInt64) : String :=
  let sign := if bits.toNat / Nat.pow 2 63 = 1 then "-" else ""
  if (bits.toNat / Nat.pow 2 52) % Nat.pow 2 11 = Nat.pow 2 11 - 1 then
    if bits.toNat % Nat.pow 2 52 = 0 then sign ++ f.infinity else f.nan
  else if bits.toNat % Nat.pow 2 63 = 0 then sign ++ "0.0"
  else sign ++ f.layout (shortest (.ofBits bits))

end StepLog.Decimal
