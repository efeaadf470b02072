/-
  Reading tags and directives of a YAML text.

  A tag is a handle and a suffix. Characters of a suffix may be written as their bytes,
  so a suffix is kept as bytes.
-/
import StepLog.Text.Utf8
import StepLog.Yaml.Cursor

namespace StepLog.Yaml

/-- A character of names: of anchors, handles and directives. -/
def isNameChar (c : Char) : Bool := c.isAlphanum || c = '_' || c = '-'

/-- A character of tags. -/
def isUriChar (c : Char) : Bool := isNameChar c || ";/?:@&=+$.%!~*'()".toList.contains c

/-- A character of tags between angle brackets and of directives. -/
def isLongUriChar (c : Char) : Bool := isUriChar c || c = ',' || c = '[' || c = ']'

/-- A byte written as a percent sign and two hexadecimal digits. -/
def octet : List Char → Option (UInt8 × List Char)
  | '%' :: a :: b :: rest => (Text.digits? 16 [a, b]).map fun n => (UInt8.ofNat n, rest)
  | _ => none

/-- So many bytes that continue a character. -/
def trailingOctets : Nat → List Char → Option (Text.Bytes × List Char)
  | 0, s => some ([], s)
  | n + 1, s => do
    let (b, rest) ← octet s
    if b.toNat / 64 ≠ 2 then none
    else (trailingOctets n rest).map fun p => (b :: p.1, p.2)

/-- Number of bytes of the character that a byte begins. -/
def octetWidth? (b : UInt8) : Option Nat :=
  if b < 0x80 then some 1
  else if 0xC0 ≤ b ∧ b < 0xE0 then some 2
  else if 0xE0 ≤ b ∧ b < 0xF0 then some 3
  else if 0xF0 ≤ b ∧ b < 0xF8 then some 4
  else none

/-- The bytes of the tag characters at the front. -/
def uri (isChar : Char → Bool) : Nat → List Char → Option (Text.Bytes × List Char)
  | 0, _ => none
  | _, [] => some ([], [])
  | fuel + 1, c :: cs =>
    if c = '%' then do
      let (b, rest) ← octet (c :: cs)
      let (bs, rest) ← trailingOctets ((← octetWidth? b) - 1) rest
      (uri isChar fuel rest).map fun p => (b :: bs ++ p.1, p.2)
    else if isChar c then (uri isChar fuel cs).map fun p => (UInt8.ofNat c.toNat :: p.1, p.2)
    else some ([], c :: cs)

/-- One or more tag characters. -/
def uri1 (isChar : Char → Bool) (s : List Char) : Option (Text.Bytes × List Char) :=
  (uri isChar (s.length + 1) s).filter fun p => !p.1.isEmpty

/-- An exclamation mark, a name, and a second mark if there is one. -/
def tagHandle : List Char → Option (List Char × List Char)
  | '!' :: rest =>
    let name := rest.takeWhile isNameChar
    match rest.dropWhile isNameChar with
    | '!' :: after => some ('!' :: name ++ ['!'], after)
    | after => some ('!' :: name, after)
  | _ => none

/-- A tag before its handle is looked up; the handle of a tag that is complete is empty. -/
structure TagName where
  handle : List Char
  suffix : Text.Bytes

/-- The tag at the front, from its exclamation mark on. -/
def tagToken (s : List Char) : Option (TagName × List Char) :=
  match s with
  | '!' :: '<' :: rest => do
    let (suffix, after) ← uri1 isLongUriChar rest
    match after with
    | '>' :: behind => return (⟨[], suffix⟩, behind)
    | _ => none
  | _ => do
    let (handle, after) ← tagHandle s
    if 2 ≤ handle.length ∧ handle.getLast? = some '!' then
      let (suffix, behind) ← uri1 isUriChar after
      return (⟨handle, suffix⟩, behind)
    else
      let (more, behind) ← uri isUriChar (after.length + 1) after
      let suffix := (handle.drop 1).map (fun c => UInt8.ofNat c.toNat) ++ more
      if suffix.isEmpty then return (⟨[], [0x21]⟩, behind) else return (⟨['!'], suffix⟩, behind)

/-! ## Directives -/

inductive Directive
  | version (major minor : Nat)
  | tag (handle : List Char) (base : Text.Bytes)

/-- A number of at most nine digits. -/
def versionNumber (s : List Char) : Option (Nat × List Char) :=
  let digits := s.takeWhile Char.isDigit
  if digits.isEmpty ∨ 9 < digits.length then none
  else some (Text.digitsValue 10 digits, s.dropWhile Char.isDigit)

/-- The value of a version directive. -/
def versionValue (s : List Char) : Option (Directive × List Char) := do
  let (major, rest) ← versionNumber (s.dropWhile isBlank)
  match rest with
  | '.' :: more => do
    let (minor, after) ← versionNumber more
    return (.version major minor, after)
  | _ => none

/-- The value of a tag directive: a handle and what it stands for. -/
def tagValue (s : List Char) : Option (Directive × List Char) := do
  let (handle, rest) ← tagHandle (s.dropWhile isBlank)
  if handle ≠ ['!'] ∧ (handle.length < 2 ∨ handle.getLast? ≠ some '!') then none
  else if !rest.head?.any isBlank then none
  else
    let (base, after) ← uri1 isLongUriChar (rest.dropWhile isBlank)
    if isBlankOrEnd after.head? then return (.tag handle base, after) else none

/-- A directive behind its percent sign, up to its value. -/
def directive (s : List Char) : Option (Directive × List Char) :=
  let name := s.takeWhile isNameChar
  let rest := s.dropWhile isNameChar
  if !isBlankOrEnd rest.head? then none
  else if name = "YAML".toList then versionValue rest
  else if name = "TAG".toList then tagValue rest
  else none

end StepLog.Yaml
