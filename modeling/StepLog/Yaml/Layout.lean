/-
  The block layout of a value.

  A collection puts each item or entry on lines of its own. Behind a dash, a question
  mark or the colon of a long key it begins on the same line; behind the colon of a short
  key, or behind a tag, it begins on the next. A list under a short key is not indented
  further than the key.
-/
import StepLog.Decimal.Notation
import StepLog.Yaml.Node
import StepLog.Yaml.Scalar

namespace StepLog.Yaml

/-- Floating-point numbers are positional from 10^-5 up to below 10^16. -/
def floats : Decimal.Notation := ⟨-5, 15, ".nan", ".inf"⟩

/-- Where a value is written. -/
structure Place where
  /-- Indentation of the collection around, or none at the top. -/
  around : Option Nat
  /-- Nothing but indicators stands before it on the line. -/
  fresh : Bool
  /-- The collection around is a map. -/
  inMap : Bool

def Place.top : Place := ⟨none, true, false⟩

/-- Indentation of the further lines of a scalar. -/
def Place.scalarIndent (p : Place) : Nat := p.around.elim 2 (· + 2)

def Place.mapIndent (p : Place) : Nat := p.around.elim 0 (· + 2)

def Place.seqIndent (p : Place) : Nat :=
  match p.around with
  | some n => if p.inMap && !p.fresh then n else n + 2
  | none => 0

/-- What divides a value from what stands before it. -/
def Place.gap (p : Place) : List Char := if p.fresh && p.around.isNone then [] else [' ']

/-- A collection written here: on the same line or from the next line on. -/
def Place.start (p : Place) (indent : Nat) : List Char :=
  if p.fresh then p.gap else '\n' :: spaces indent

/-- Ends the line, unless the text ends in a line break of its own. -/
def endLine (s : List Char) : List Char := if s.getLast?.any isBreak then s else s ++ ['\n']

/-- Puts pieces on lines of their own. -/
def stack (indent : Nat) : List (List Char) → List Char
  | [] => []
  | [piece] => piece
  | piece :: pieces => endLine piece ++ spaces indent ++ stack indent pieces

/-! ## Tags -/

/-- A character that stands for itself in a tag. -/
def isTagChar (c : Char) : Bool := c.isAlphanum || "_-;/?:@&=+$,.~*'()[]".toList.contains c

/-- A tag as written; a character that a tag does not hold is replaced by its bytes. -/
def tagText (tag : String) : List Char :=
  '!' :: (tagName tag).flatMap fun c =>
    if isTagChar c then [c]
    else (Text.encode (String.singleton c)).flatMap fun b => '%' :: Text.hexDigits 2 b.toNat

/-- Number of bytes of a tag before any of them is replaced. -/
def tagLength (tag : String) : Nat := 1 + Text.byteLength (tagName tag)

/-! ## Values -/

/-- A scalar whose further lines have this indentation; empty collections are written
like scalars. -/
def Node.scalar (indent : Nat) : Node → List Char
  | .null => "null".toList
  | .bool b => if b then "true".toList else "false".toList
  | .int n => (toString n).toList
  | .float bits => (floats.write bits).toList
  | .text s => spell indent s
  | .seq _ => "[]".toList
  | .map _ => "\x7b\x7d".toList
  | .tagged _ _ => []

/-- The value fits on the line before a colon: a scalar of one line or an empty
collection, of at most 128 bytes together with its tag. -/
def Node.isShortKey (tagBytes : Nat) : Node → Bool
  | .text s => !s.toList.any isBreak && tagBytes + Text.byteLength s.toList ≤ 128
  | .seq items => items.isEmpty && tagBytes ≤ 128
  | .map entries => entries.isEmpty && tagBytes ≤ 128
  | .tagged tag v => v.isShortKey (tagLength tag)
  | n => tagBytes + (n.scalar 0).length ≤ 128

/-- A tag and the place behind it. -/
def Place.behindTag (p : Place) : Place := { p with fresh := false }

mutual

/-- A value as it is written at a place, with the gap before it. -/
def Node.layout (p : Place) : Node → List Char
  | .seq (x :: xs) => p.start p.seqIndent ++ stack p.seqIndent (Node.items p.seqIndent (x :: xs))
  | .map (e :: es) => p.start p.mapIndent ++ stack p.mapIndent (Node.entries p.mapIndent (e :: es))
  | .tagged tag v => p.gap ++ tagText tag ++ v.layout p.behindTag
  | n => p.gap ++ n.scalar p.scalarIndent

def Node.items (indent : Nat) : List Node → List (List Char)
  | [] => []
  | x :: xs => ('-' :: x.layout ⟨some indent, true, false⟩) :: Node.items indent xs

/-- The lines of entries: one piece for a short key and its value, two for a long one. -/
def Node.entries (indent : Nat) : List (Node × Node) → List (List Char)
  | [] => []
  | (k, v) :: es =>
    (if k.isShortKey 0 then
      [(k.layout ⟨some indent, true, true⟩).drop 1 ++ ':' :: v.layout ⟨some indent, false, true⟩]
    else
      ['?' :: k.layout ⟨some indent, true, true⟩, ':' :: v.layout ⟨some indent, true, true⟩]) ++
    Node.entries indent es

end

/-- The document of a value, its last line ended. -/
def Node.document (n : Node) : List Char := endLine (n.layout .top)

end StepLog.Yaml
