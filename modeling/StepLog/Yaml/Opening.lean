/-
  Which values have a written form.

  A tag may not stand directly under a tag. And since a tagged value and a map of one
  entry begin alike, the opening of such a map is held back until its key begins: a key
  that is a map of one entry or a tagged value takes its place, the map is never opened,
  and its end finds nothing to close. `Node.admit` follows the openings and endings in
  order and stops at the first fault.
-/
import StepLog.Yaml.Node

namespace StepLog.Yaml

/-- Why a value has no written form. -/
inductive OpeningFault
  | nestedTags
  /-- An end where a value has to come. -/
  | valueExpected
  /-- An end where a document has to come. -/
  | documentExpected
deriving DecidableEq

def OpeningFault.message : OpeningFault → String
  | .nestedTags => "serializing nested enums in YAML is not supported yet"
  | .valueExpected => "expected SCALAR, SEQUENCE-START, MAPPING-START, or ALIAS"
  | .documentExpected => "expected DOCUMENT-START or STREAM-END"

/-- What an open collection has next. -/
inductive Awaited
  | item
  | key
  | value
deriving DecidableEq

/-- The open collections, innermost first. -/
abbrev Open := List Awaited

/-- After one value. -/
def Open.step : Open → Open
  | .key :: rest => .value :: rest
  | .value :: rest => .key :: rest
  | stack => stack

def Open.openMap (stack : Open) : Open := .key :: stack.step

def Open.openSeq (stack : Open) : Open := .item :: stack.step

def Open.closeMap : Open → Except OpeningFault Open
  | .key :: rest => .ok rest
  | [] => .error .documentExpected
  | _ => .error .valueExpected

/-- What stands right before a value. -/
inductive Lead
  | nothing
  /-- The opening of a map, held back. -/
  | held
  /-- A tag that the value takes. -/
  | tag
deriving DecidableEq

/-- Puts in the opening that was held back. -/
def Lead.settle (lead : Lead) (stack : Open) : Open :=
  if lead = .held then stack.openMap else stack

mutual

/-- The open collections after a value, if there is no fault in it. -/
def Node.admit (stack : Open) (lead : Lead) : Node → Except OpeningFault Open
  | .seq items => do
    let inside ← Node.admitItems (lead.settle stack).openSeq items
    return inside.drop 1
  | .map [(k, v)] => do
    let afterKey ←
      if lead = .tag then k.admit stack.openMap .nothing else k.admit stack .held
    let afterValue ← v.admit afterKey .nothing
    afterValue.closeMap
  | .map entries => do
    let inside ← Node.admitEntries (lead.settle stack).openMap entries
    inside.closeMap
  | .tagged _ v => if lead = .tag then .error .nestedTags else v.admit stack .tag
  | _ => .ok (lead.settle stack).step

def Node.admitItems (stack : Open) : List Node → Except OpeningFault Open
  | [] => .ok stack
  | x :: xs => do Node.admitItems (← x.admit stack .nothing) xs

def Node.admitEntries (stack : Open) : List (Node × Node) → Except OpeningFault Open
  | [] => .ok stack
  | (k, v) :: es => do
    let afterKey ← k.admit stack .nothing
    Node.admitEntries (← v.admit afterKey .nothing) es

end

/-- The fault that keeps a value from being written, if there is one. -/
def Node.fault? (n : Node) : Option OpeningFault :=
  match n.admit [] .nothing with
  | .ok _ => none
  | .error fault => some fault

end StepLog.Yaml
