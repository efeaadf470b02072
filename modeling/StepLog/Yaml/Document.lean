/-
  YAML documents as they are written: with tags, anchors and aliases.

  A text holds at most one document. An anchor is known by a number, which is the number of
  names known before it; so an anchor that takes over a name may share its number with a
  later one, and an alias stands for the last value that began under its number.
-/
import StepLog.Yaml.Lexeme.Basic

namespace StepLog.Yaml

inductive Content
  | scalar (tag : Option Text.Bytes) (plain : Bool) (text : String)
  | seq (items : List Content)
  | map (tag : Option Text.Bytes) (entries : List (Content × Content))
  | alias (id : Nat)

/-- A scalar that is not written. -/
def Content.missing : Content := .scalar none true ""

/-! ## Anchors and tags -/

/-- A value with an anchor, and how many values with anchors began before it. -/
structure Anchored where
  id : Nat
  place : Nat
  content : Content

structure Reader where
  lexemes : List Lexeme
  /-- What the handles of tags stand for. -/
  handles : List (List Char × Text.Bytes)
  /-- The number that each anchor name stands for. -/
  names : List (List Char × Nat)
  /-- Number of anchors so far. -/
  begun : Nat
  anchored : List Anchored

namespace Reader

def rest (r : Reader) (lexemes : List Lexeme) : Reader := { r with lexemes := lexemes }

/-- The tag that a tag name stands for. -/
def tag? (r : Reader) (t : TagName) : Option Text.Bytes :=
  if t.handle.isEmpty then some t.suffix
  else (r.handles.lookup t.handle).map (· ++ t.suffix)

/-- What stands before a value: an anchor, a tag, or both in either order. -/
structure Properties where
  anchor : Option (List Char)
  tag : Option TagName

def properties (r : Reader) : Properties × Reader :=
  match r.lexemes with
  | .anchor a :: .tag t :: more => (⟨some a, some t⟩, r.rest more)
  | .anchor a :: more => (⟨some a, none⟩, r.rest more)
  | .tag t :: .anchor a :: more => (⟨some a, some t⟩, r.rest more)
  | .tag t :: more => (⟨none, some t⟩, r.rest more)
  | _ => (⟨none, none⟩, r)

/-- Gives a number to an anchor. -/
def startAnchor (r : Reader) (name : List Char) : Nat × Reader :=
  let id := r.names.length
  (id, { r with
    names := (name, id) :: r.names.filter (fun n => n.1 ≠ name)
    begun := r.begun + 1 })

/-- Records the value of an anchor that was the `place`-th to begin. -/
def record (r : Reader) (id place : Nat) (content : Content) : Reader :=
  { r with anchored := ⟨id, place, content⟩ :: r.anchored }

/-! ## Values -/

def nextIs (r : Reader) (p : Lexeme → Bool) : Bool := r.lexemes.head?.any p

/-- The lexemes before which a value of a block mapping may be missing. -/
def endsBlockValue : Lexeme → Bool
  | .key | .value | .blockEnd => true
  | _ => false

def endsBlockItem : Lexeme → Bool
  | .blockEntry | .blockEnd => true
  | _ => false

def endsLooseItem : Lexeme → Bool
  | .blockEntry | .key | .value | .blockEnd => true
  | _ => false

/-- The lexemes before which the value of an entry in a flow sequence may be missing. -/
def endsFlowItem : Lexeme → Bool
  | .flowEntry | .flowSequenceEnd => true
  | _ => false

def endsFlowItemKey : Lexeme → Bool
  | .value => true
  | l => endsFlowItem l

def endsFlowMember : Lexeme → Bool
  | .flowEntry | .flowMappingEnd => true
  | _ => false

def endsFlowMemberKey : Lexeme → Bool
  | .value => true
  | l => endsFlowMember l

mutual

/-- A value. `block` tells that it may be a block collection, `loose` that it may be a
sequence that is not indented. -/
def node : Nat → Bool → Bool → Reader → Option (Content × Reader)
  | 0, _, _, _ => none
  | fuel + 1, block, loose, r =>
    match r.lexemes with
    | .alias name :: more => (r.names.lookup name).map fun id => (.alias id, r.rest more)
    | _ => do
      let (p, r) := r.properties
      let tag ← match p.tag with
        | none => some none
        | some t => (r.tag? t).map some
      match p.anchor with
      | none => content fuel block loose p.tag.isSome tag r
      | some name =>
        let place := r.begun
        let (id, r) := r.startAnchor name
        let (v, r) ← content fuel block loose true tag r
        return (v, r.record id place v)

/-- A value behind its properties. With properties the value itself may be missing. -/
def content : Nat → Bool → Bool → Bool → Option Text.Bytes → Reader → Option (Content × Reader)
  | 0, _, _, _, _, _ => none
  | fuel + 1, block, loose, marked, tag, r =>
    match r.lexemes with
    | .scalar plain text :: more => some (.scalar tag plain (String.ofList text), r.rest more)
    | .flowSequenceStart :: more =>
      (flowItems fuel true (r.rest more)).map fun p => (.seq p.1, p.2)
    | .flowMappingStart :: more =>
      (flowEntries fuel true (r.rest more)).map fun p => (.map tag p.1, p.2)
    | lexemes =>
      match block, loose, lexemes with
      | true, _, .blockSequenceStart :: more =>
        (blockItems fuel (r.rest more)).map fun p => (.seq p.1, p.2)
      | true, _, .blockMappingStart :: more =>
        (blockEntries fuel (r.rest more)).map fun p => (.map tag p.1, p.2)
      | _, true, .blockEntry :: _ => (looseItems fuel r).map fun p => (.seq p.1, p.2)
      | _, _, _ => if marked then some (.scalar tag true "", r) else none

/-- The items of a block sequence, up to its end. -/
def blockItems : Nat → Reader → Option (List Content × Reader)
  | 0, _ => none
  | fuel + 1, r =>
    match r.lexemes with
    | .blockEntry :: more => do
      let (v, r) ← optional fuel true false endsBlockItem (r.rest more)
      let (vs, r) ← blockItems fuel r
      return (v :: vs, r)
    | .blockEnd :: more => some ([], r.rest more)
    | _ => none

/-- The items of a sequence that is not indented. -/
def looseItems : Nat → Reader → Option (List Content × Reader)
  | 0, _ => none
  | fuel + 1, r =>
    match r.lexemes with
    | .blockEntry :: more => do
      let (v, r) ← optional fuel true false endsLooseItem (r.rest more)
      let (vs, r) ← looseItems fuel r
      return (v :: vs, r)
    | _ => some ([], r)

/-- The entries of a block mapping, up to its end. -/
def blockEntries : Nat → Reader → Option (List (Content × Content) × Reader)
  | 0, _ => none
  | fuel + 1, r =>
    match r.lexemes with
    | .key :: more => do
      let (k, r) ← optional fuel true true endsBlockValue (r.rest more)
      let (v, r) ← valueOf fuel true true endsBlockValue r
      let (es, r) ← blockEntries fuel r
      return ((k, v) :: es, r)
    | .blockEnd :: more => some ([], r.rest more)
    | _ => none

/-- A value that is missing before certain lexemes. -/
def optional : Nat → Bool → Bool → (Lexeme → Bool) → Reader → Option (Content × Reader)
  | 0, _, _, _, _ => none
  | fuel + 1, block, loose, ends, r =>
    if r.nextIs ends then some (.missing, r) else node fuel block loose r

/-- The value of an entry, missing if there is no colon. -/
def valueOf : Nat → Bool → Bool → (Lexeme → Bool) → Reader → Option (Content × Reader)
  | 0, _, _, _, _ => none
  | fuel + 1, block, loose, ends, r =>
    match r.lexemes with
    | .value :: more => optional fuel block loose ends (r.rest more)
    | _ => some (.missing, r)

/-- The items of a flow sequence, up to its end. An item may be a single entry. -/
def flowItems : Nat → Bool → Reader → Option (List Content × Reader)
  | 0, _, _ => none
  | fuel + 1, first, r =>
    match first, r.lexemes with
    | _, .flowSequenceEnd :: more => some ([], r.rest more)
    | false, .flowEntry :: .flowSequenceEnd :: more => some ([], r.rest more)
    | false, .flowEntry :: more => flowItem fuel (r.rest more)
    | false, _ => none
    | true, _ => flowItem fuel r

/-- An item of a flow sequence and the items behind it. -/
def flowItem : Nat → Reader → Option (List Content × Reader)
  | 0, _ => none
  | fuel + 1, r =>
    match r.lexemes with
    | .key :: more => do
      let inside := r.rest more
      let (k, r) ←
        if inside.nextIs endsFlowItemKey then some (Content.missing, inside.rest (more.drop 1))
        else node fuel false false inside
      let (v, r) ← valueOf fuel false false endsFlowItem r
      let (vs, r) ← flowItems fuel false r
      return (.map none [(k, v)] :: vs, r)
    | _ => do
      let (v, r) ← node fuel false false r
      let (vs, r) ← flowItems fuel false r
      return (v :: vs, r)

/-- The entries of a flow mapping, up to its end. -/
def flowEntries : Nat → Bool → Reader → Option (List (Content × Content) × Reader)
  | 0, _, _ => none
  | fuel + 1, first, r =>
    match first, r.lexemes with
    | _, .flowMappingEnd :: more => some ([], r.rest more)
    | false, .flowEntry :: .flowMappingEnd :: more => some ([], r.rest more)
    | false, .flowEntry :: more => flowMember fuel (r.rest more)
    | false, _ => none
    | true, _ => flowMember fuel r

/-- An entry of a flow mapping and the entries behind it. -/
def flowMember : Nat → Reader → Option (List (Content × Content) × Reader)
  | 0, _ => none
  | fuel + 1, r =>
    match r.lexemes with
    | .key :: more => do
      let (k, r) ← optional fuel false false endsFlowMemberKey (r.rest more)
      let (v, r) ← valueOf fuel false false endsFlowMember r
      let (es, r) ← flowEntries fuel false r
      return ((k, v) :: es, r)
    | _ => do
      let (k, r) ← node fuel false false r
      let (es, r) ← flowEntries fuel false r
      return ((k, .missing) :: es, r)

end

end Reader

/-! ## Documents -/

/-- The handles that need no directive. -/
def standardHandles : List (List Char × Text.Bytes) :=
  [(['!'], Text.encode "!"), (['!', '!'], Text.encode "tag:yaml.org,2002:")]

/-- Reads the directives of a document: at most one version, which has to be 1.1 or 1.2,
and at most one meaning for each handle. -/
def directives (versioned : Bool) (handles : List (List Char × Text.Bytes)) :
    List Lexeme → Option (List (List Char × Text.Bytes) × List Lexeme)
  | .directive (.version major minor) :: more =>
    if versioned || !(major == 1 && (minor == 1 || minor == 2)) then none
    else directives true handles more
  | .directive (.tag handle base) :: more =>
    if (handles.lookup handle).isSome then none
    else directives versioned (handles ++ [(handle, base)]) more
  | lexemes => some (handles, lexemes)

def Lexeme.isDirective : Lexeme → Bool
  | .directive _ => true
  | _ => false

def Lexeme.isDocumentMark : Lexeme → Bool
  | .documentStart | .documentEnd => true
  | _ => false

def Lexeme.isDocumentEnd : Lexeme → Bool
  | .documentEnd => true
  | _ => false

/-- A document: its value, if the text has one, and the values with anchors. -/
structure Document where
  root : Option Content
  anchored : List Anchored

namespace Document

/-- The value of a document whose lexemes begin here; nothing may follow it. -/
def ofLexemes (handles : List (List Char × Text.Bytes)) (mayMiss : Bool) (lexemes : List Lexeme) :
    Option Document := do
  let r : Reader := ⟨lexemes, handles ++ standardHandles, [], 0, []⟩
  let missing := mayMiss && lexemes.head?.all fun l => l.isDirective || l.isDocumentMark
  let (root, r) ←
    if missing then some (Content.missing, r)
    else Reader.node (5 * lexemes.length + 5) true false r
  if r.lexemes.all Lexeme.isDocumentEnd then return ⟨some root, r.anchored⟩ else none

/-- The document of a text. A text without one has no value. -/
def read? (s : List Char) : Option Document := do
  let lexemes ← lexemes? s
  match lexemes with
  | [] => return ⟨none, []⟩
  | first :: _ =>
    if first.isDirective || (first.isDocumentMark && !first.isDocumentEnd) then
      let (handles, rest) ← directives false [] lexemes
      match rest with
      | .documentStart :: body => ofLexemes handles true body
      | _ => none
    else ofLexemes [] false lexemes

/-- The value that began last under an anchor number. -/
def anchor? (d : Document) (id : Nat) : Option Content :=
  ((d.anchored.filter fun a => a.id = id).foldl
    (fun (best : Option Anchored) a =>
      if best.all fun b => b.place < a.place then some a else best) none).map Anchored.content

/-- A value, or the value that an alias stands for. -/
def resolve? (d : Document) : Content → Option Content
  | .alias id => d.anchor? id
  | v => some v

end Document

end StepLog.Yaml
