/-
  From a value of a data format to a configuration.

  Formats differ in what passes for a record or for the name of a choice; a `Reading` says
  it for one format. The rest is common to all: a record gives its fields by name or by
  position, a field that is missing has its default, a field that is not known is
  ignored, and a known field may not be given twice.
-/
import StepLog.Config.Basic

namespace StepLog

/-- The fields of a record as a file gives them. -/
inductive Fields (α : Type)
  | named (entries : List (String × α))
  | listed (items : List α)

/-- How a format gives records and choices. -/
structure Reading (α : Type) where
  /-- The fields of a record that has so many. -/
  fields? : Nat → α → Option (Fields α)
  /-- The name of a choice. -/
  choice? : α → Option String

/-- How a field is given. -/
inductive Given (α : Type)
  | absent
  | once (x : α)
  | twice

/-- The field with a name and a position. -/
def Fields.given {α : Type} (name : String) (position : Nat) : Fields α → Given α
  | .named entries =>
    match entries.filter fun e => e.1 = name with
    | [] => .absent
    | [e] => .once e.2
    | _ => .twice
  | .listed items =>
    match items[position]? with
    | none => .absent
    | some x => .once x

/-- The value of a field, read by `read` where it is given. -/
def Given.value {α β : Type} (default : β) (read : α → Option β) : Given α → Option β
  | .absent => some default
  | .once x => read x
  | .twice => none

namespace Reading

variable {α : Type} (r : Reading α)

/-- A choice by its name. -/
def choose {β : Type} (ofName? : String → Option β) (x : α) : Option β := (r.choice? x).bind ofName?

/-- The section of a configuration about output. -/
def output (base : Config) (x : α) : Option Config := do
  let fields ← r.fields? 3 x
  let level ← (fields.given "level" 0).value base.level (r.choose Severity.ofName?)
  let color ← (fields.given "color" 1).value base.color (r.choose ColorChoice.ofName?)
  let theme ← (fields.given "theme" 2).value base.theme (r.choose ThemeChoice.ofName?)
  return { base with level := level, color := color, theme := theme }

/-- The section of a configuration about CI. -/
def ci (base : Config) (x : α) : Option Config := do
  let fields ← r.fields? 1 x
  let provider ← (fields.given "provider" 0).value base.provider (r.choose CiProvider.ofName?)
  return { base with provider := provider }

/-- The configuration of a whole file. -/
def config (x : α) : Option Config := do
  let fields ← r.fields? 2 x
  let base ← (fields.given "output" 0).value Config.default (r.output Config.default)
  (fields.given "ci" 1).value base (r.ci base)

end Reading

end StepLog
