/-
  The shortest decimal that identifies a binary floating-point number.

  A number m * 2^q stands for an interval of reals, the ones that round to it: from
  half-way to the neighbor below to half-way to the neighbor above, the ends included
  when m is even. `shortest` finds in that interval a decimal of the fewest digits, and
  of those the one nearest to the number; an exact tie goes to the even digit.

  For n digits the candidates are the two neighbors of the number among the multiples
  of a power of ten. All comparisons are exact, between naturals.
-/

namespace StepLog.Decimal

/-- A positive number `mantissa * 2 ^ exponent` and its place among its neighbors. -/
structure Binary where
  mantissa : Nat
  exponent : Int
  /-- The neighbor below is half as far away as the one above. -/
  narrowBelow : Bool

/-- A decimal `digits * 10 ^ exponent`. -/
structure Dec where
  digits : Nat
  exponent : Int
deriving DecidableEq

/-- The number of a 64-bit pattern whose exponent bits are not all set, its sign left out. -/
def Binary.ofBits (bits : UInt64) : Binary :=
  let e : Nat := (bits.toNat / Nat.pow 2 52) % Nat.pow 2 11
  let f : Nat := bits.toNat % Nat.pow 2 52
  if e = 0 then ⟨f, -1074, false⟩
  else ⟨Nat.pow 2 52 + f, (e : Int) - 1075, decide (f = 0) && decide (1 < e)⟩

/-- Compares `a * 10 ^ i` with `b * 2 ^ j`. -/
def compareScaled (a : Nat) (i : Int) (b : Nat) (j : Int) : Ordering :=
  compare (a * Nat.pow 10 i.toNat * Nat.pow 2 (-j).toNat)
    (b * Nat.pow 2 j.toNat * Nat.pow 10 (-i).toNat)

/-- The decimal lies among the reals that round to `x`. -/
def Binary.readsBack (x : Binary) (d : Dec) : Bool :=
  let low := if x.narrowBelow then 4 * x.mantissa - 1 else 4 * x.mantissa - 2
  let high := 4 * x.mantissa + 2
  let ends := x.mantissa % 2 == 0
  let l := compareScaled d.digits d.exponent low (x.exponent - 2)
  let h := compareScaled d.digits d.exponent high (x.exponent - 2)
  (l == .gt || (ends && l == .eq)) && (h == .lt || (ends && h == .eq))

/-- The least `k` with `x < 10 ^ k`, up to a first guess from the binary exponent that is
too low by one at most. -/
def Binary.scale (x : Binary) : Int :=
  let guess := ((x.mantissa.log2 : Int) + x.exponent) * 30103 / 100000
  let below (k : Int) : Bool := compareScaled 1 k x.mantissa x.exponent == .gt
  if below (guess - 1) then guess - 1
  else if below guess then guess
  else if below (guess + 1) then guess + 1
  else guess + 2

/-- `⌊x / 10 ^ k⌋`. -/
def Binary.quotient (x : Binary) (k : Int) : Nat :=
  (x.mantissa * Nat.pow 2 x.exponent.toNat * Nat.pow 10 (-k).toNat) /
    (Nat.pow 2 (-x.exponent).toNat * Nat.pow 10 k.toNat)

/-- Of the two neighbors of `x` among the multiples of `10 ^ k`, the one to take, if any
reads back. -/
def Binary.onGrid (x : Binary) (k : Int) : Option Dec :=
  let low : Dec := ⟨x.quotient k, k⟩
  let high : Dec := ⟨x.quotient k + 1, k⟩
  match x.readsBack low, x.readsBack high with
  | false, false => none
  | true, false => some low
  | false, true => some high
  | true, true =>
    match compareScaled (low.digits + high.digits) k (2 * x.mantissa) x.exponent with
    | .gt => some low
    | .lt => some high
    | .eq => some (if low.digits % 2 = 0 then low else high)

/-- Moves the zeros at the end of the digits into the exponent. -/
def Dec.strip (d : Dec) : Dec :=
  go d.digits d.digits d.exponent
where
  go : Nat → Nat → Int → Dec
  | 0, n, e => ⟨n, e⟩
  | fuel + 1, n, e => if n ≠ 0 ∧ n % 10 = 0 then go fuel (n / 10) (e + 1) else ⟨n, e⟩

/-- The decimal of the fewest digits that reads back as `x`. Seventeen digits always do. -/
def shortest (x : Binary) : Dec :=
  let k := x.scale
  match (List.range 17).findSome? fun n => x.onGrid (k - (n + 1 : Nat)) with
  | some d => d.strip
  | none => ⟨x.quotient (k - 17), k - 17⟩

end StepLog.Decimal
