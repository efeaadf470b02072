/-
  Parameter values and the YAML values they become.

  A value may refuse to be written, with a text of its own, wherever it stands. The first
  refusal in reading order is the one reported.
-/
import StepLog.Yaml.Node

namespace StepLog

inductive Value
  | null
  | bool (b : Bool)
  | int (n : Int)
  /-- A 64-bit floating-point number, as its bits. -/
  | float (bits : UInt64)
  | text (s : String)
  | bytes (b : Text.Bytes)
  | list (items : List Value)
  | map (entries : List (Value × Value))
  | tagged (tag : String) (value : Value)
  /-- A value that refuses to be written, and why. -/
  | failing (reason : String)

/-- Why a value is not written. -/
inductive ValueFault
  | refused (reason : String)
  | emptyTag
deriving DecidableEq

def ValueFault.message : ValueFault → String
  | .refused reason => reason
  | .emptyTag => "empty YAML tag is not allowed"

namespace Value

/-- An integer of 64 bits, signed or not; a greater one becomes a text of its digits. -/
def integer (n : Int) : Yaml.Node :=
  if -((Nat.pow 2 63 : Nat) : Int) ≤ n ∧ n < (Nat.pow 2 64 : Nat) then .int n else .text (toString n)

mutual

/-- The YAML value of a parameter value. A repeated key of a map keeps its first place
and its last value. -/
def toNode : Value → Except ValueFault Yaml.Node
  | null => .ok .null
  | bool b => .ok (.bool b)
  | int n => .ok (integer n)
  | float bits => .ok (.float bits)
  | text s => .ok (.text s)
  | bytes b => .ok (.seq (b.map fun x => .int x.toNat))
  | list items => do return .seq (← itemNodes items)
  | map entries => do return .map (← entryNodes [] entries)
  | tagged tag v => if tag.isEmpty then .error .emptyTag else do return .tagged tag (← v.toNode)
  | failing reason => .error (.refused reason)

def itemNodes : List Value → Except ValueFault (List Yaml.Node)
  | [] => .ok []
  | x :: xs => do
    let n ← x.toNode
    return n :: (← itemNodes xs)

/-- The entries of a map, added to those before them. -/
def entryNodes (before : List (Yaml.Node × Yaml.Node)) :
    List (Value × Value) → Except ValueFault (List (Yaml.Node × Yaml.Node))
  | [] => .ok before
  | (k, v) :: es => do
    let key ← k.toNode
    let value ← v.toNode
    entryNodes (Yaml.insert key value before) es

end

end Value

end StepLog
