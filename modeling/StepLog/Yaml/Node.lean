/-
  YAML values.

  A map keeps its entries in order. Two keys of a map are the same key if `Node.same`
  holds of them: numbers compare by value, except that no integer is the same as a
  floating-point number; maps compare without regard to order.
-/
import StepLog.Text.Utf8

namespace StepLog.Yaml

inductive Node
  | null
  | bool (b : Bool)
  | int (n : Int)
  /-- A 64-bit floating-point number, as its bits. -/
  | float (bits : UInt64)
  | text (s : String)
  | seq (items : List Node)
  | map (entries : List (Node × Node))
  | tagged (tag : String) (value : Node)

/-- The name of a tag: what follows its exclamation mark, which may be left out. A mark
that stands alone is a name. -/
def tagName (tag : String) : List Char :=
  match tag.toList with
  | '!' :: c :: cs => c :: cs
  | s => s

def isNaN (bits : UInt64) : Bool := decide (bits.toNat % Nat.pow 2 63 > 0x7FF * Nat.pow 2 52)

def isZero (bits : UInt64) : Bool := bits.toNat % Nat.pow 2 63 == 0

/-- Equality of floating-point numbers, with one NaN and one zero. -/
def sameFloat (a b : UInt64) : Bool :=
  (isNaN a && isNaN b) || (isZero a && isZero b) || (!isNaN a && a == b)

mutual

def Node.same : Node → Node → Bool
  | .null, .null => true
  | .bool a, .bool b => a == b
  | .int a, .int b => a == b
  | .float a, .float b => sameFloat a b
  | .text a, .text b => a == b
  | .seq xs, .seq ys => Node.sameItems xs ys
  | .map xs, .map ys => xs.length == ys.length && Node.sameEntries xs ys
  | .tagged s v, .tagged t w => tagName s == tagName t && v.same w
  | _, _ => false

def Node.sameItems : List Node → List Node → Bool
  | [], [] => true
  | x :: xs, y :: ys => x.same y && Node.sameItems xs ys
  | _, _ => false

/-- Every entry of the first map is in the second. -/
def Node.sameEntries : List (Node × Node) → List (Node × Node) → Bool
  | [], _ => true
  | (k, v) :: es, fs => (fs.any fun f => k.same f.1 && v.same f.2) && Node.sameEntries es fs

end

/-- Puts a value into a map: a key that is there keeps its place and takes the value. -/
def insert (key value : Node) : List (Node × Node) → List (Node × Node)
  | [] => [(key, value)]
  | (k, v) :: es => if k.same key then (k, value) :: es else (k, v) :: insert key value es

end StepLog.Yaml
