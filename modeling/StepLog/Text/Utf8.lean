/-
  Text as bytes.

  Paths, arguments, environment variables and file contents arrive as bytes that
  need not be UTF-8. `decode?` is the strict reading, `decodeLossy` the one for
  messages: where the bytes are no UTF-8, each longest piece that could still have
  begun a character becomes one replacement character. On bytes that are UTF-8 the
  two agree (`decodeLossy_encode`).
-/

namespace StepLog.Text

/-- A sequence of bytes, UTF-8 or not. -/
abbrev Bytes := List UInt8

def encode (s : String) : Bytes := s.toUTF8.data.toList

/-- The text whose UTF-8 form the bytes are, if they are one. -/
def decode? (b : Bytes) : Option String := String.fromUTF8? ⟨b.toArray⟩

/-- Number of bytes of the characters of `s` in UTF-8. -/
def byteLength : List Char → Nat
  | [] => 0
  | c :: cs => c.utf8Size + byteLength cs

theorem decode?_encode (s : String) : decode? (encode s) = some s := by
  have h : String.fromUTF8? s.toByteArray = some s := by
    simp only [String.fromUTF8?, s.isValidUTF8, dite_true]
    rfl
  simpa [decode?, encode] using h

/-! ## The lossy reading -/

/-- The range of second bytes that may follow lead byte `b`, and how many bytes the
character has; `none` if `b` leads no character of several bytes. -/
def continuation (b : UInt8) : Option (Nat × UInt8 × UInt8) :=
  if 0xC2 ≤ b ∧ b ≤ 0xDF then some (2, 0x80, 0xBF)
  else if b = 0xE0 then some (3, 0xA0, 0xBF)
  else if b = 0xED then some (3, 0x80, 0x9F)
  else if 0xE1 ≤ b ∧ b ≤ 0xEF then some (3, 0x80, 0xBF)
  else if b = 0xF0 then some (4, 0x90, 0xBF)
  else if b = 0xF4 then some (4, 0x80, 0x8F)
  else if 0xF1 ≤ b ∧ b ≤ 0xF3 then some (4, 0x80, 0xBF)
  else none

/-- Value and length of what stands at the front of `b :: rest`: a character, or one
replacement character for the longest piece that could have begun one. -/
def firstChar (b : UInt8) (rest : Bytes) : Char × Nat :=
  let bad (n : Nat) := (Char.ofNat 0xFFFD, n)
  let low (x : UInt8) := x.toNat % 64
  let isTail (x : UInt8) : Bool := 0x80 ≤ x && x ≤ 0xBF
  if b < 0x80 then (Char.ofNat b.toNat, 1)
  else match continuation b, rest with
    | none, _ => bad 1
    | some _, [] => bad 1
    | some (n, lo, hi), x :: r =>
      if x < lo ∨ hi < x then bad 1
      else if n = 2 then (Char.ofNat (b.toNat % 32 * 64 + low x), 2)
      else match r with
        | [] => bad 2
        | y :: r =>
          if !isTail y then bad 2
          else if n = 3 then (Char.ofNat ((b.toNat % 16 * 64 + low x) * 64 + low y), 3)
          else match r with
            | [] => bad 3
            | z :: _ =>
              if !isTail z then bad 3
              else (Char.ofNat (((b.toNat % 8 * 64 + low x) * 64 + low y) * 64 + low z), 4)

/-- `firstChar` over and over; `fuel` bounds the number of characters. -/
def replaceBroken : Nat → Bytes → List Char
  | 0, _ => []
  | _, [] => []
  | fuel + 1, b :: rest =>
    let (c, n) := firstChar b rest
    c :: replaceBroken fuel (rest.drop (n - 1))

/-- The text of the bytes, with replacement characters where they are no UTF-8. -/
def decodeLossy (b : Bytes) : String :=
  (decode? b).getD (String.ofList (replaceBroken b.length b))

theorem decodeLossy_encode (s : String) : decodeLossy (encode s) = s := by
  simp [decodeLossy, decode?_encode]

end StepLog.Text
