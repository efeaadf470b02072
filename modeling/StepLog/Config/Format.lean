/-
  Configuration files: their formats, and how a configuration is read from and written in
  each.

  In JSON and TOML a record may also be given as a list, by position. A choice is given by
  its name; a name may carry an empty value, as a member with nothing, an empty table, or a
  tag before an empty scalar, depending on the format.
-/
import StepLog.Config.Reading
import StepLog.Json.Value
import StepLog.Toml.Document
import StepLog.Yaml.Document
import StepLog.Yaml.Layout

namespace StepLog

inductive Format
  | toml
  | json
  | yaml
deriving DecidableEq

/-! ## Reading -/

/-- Entries that all have a key. -/
def allNamed {α : Type} (entries : List (Option String × α)) : Option (List (String × α)) :=
  entries.mapM fun e => e.1.map (·, e.2)

/-- JSON records are objects or arrays of at most as many items as there are fields. -/
def Json.reading : Reading Json.Value where
  fields? arity
    | .object entries => (allNamed entries).map .named
    | .array items => if items.length ≤ arity then some (.listed items) else none
    | _ => none
  choice?
    | .text s => s
    | .object [(name, .null)] => name
    | _ => none

/-- A table or array with nothing in it. -/
def Toml.Item.isEmpty : Toml.Item → Bool
  | .table _ entries => entries.isEmpty
  | .array items => items.isEmpty
  | _ => false

/-- TOML records are tables or arrays; a date is a record without known fields. -/
def Toml.reading : Reading Toml.Item where
  fields? _
    | .table _ entries => some (.named entries)
    | .array items => some (.listed items)
    | .tables elements => some (.listed (elements.map (Toml.Item.table .header)))
    | .datetime => some (.named [])
    | _ => none
  choice?
    | .text s => some s
    | .table _ [(name, item)] => if item.isEmpty then some name else none
    | _ => none

namespace Yaml

/-- The name of a tag of the application's own: what follows its exclamation mark. -/
def localTag? (tag : Option Text.Bytes) : Option String :=
  match tag with
  | some (0x21 :: b :: bs) => Text.decode? (b :: bs)
  | _ => none

/-- The text of a key. -/
def Document.keyText? (d : Document) (key : Content) : Option String :=
  match d.resolve? key with
  | some (.scalar _ _ text) => some text
  | _ => none

/-- YAML records are mappings; a value that is missing is a record without fields. -/
def Document.reading (d : Document) : Reading Content where
  fields? _ v :=
    match d.resolve? v with
    | some (.map _ entries) => (allNamed (entries.map fun e => (d.keyText? e.1, e.2))).map .named
    | some (.scalar _ true "") => some (.named [])
    | _ => none
  choice? v :=
    match d.resolve? v with
    | some (.scalar tag plain text) =>
      match localTag? tag with
      | some name => if plain && isNull text then some name else none
      | none => some text
    | _ => none

end Yaml

/-- The configuration that a text gives in a format. -/
def Format.read? : Format → String → Option Config
  | .toml, s => (Toml.Item.read? s.toList).bind Toml.reading.config
  | .json, s => (Json.Value.read? s.toList).bind Json.reading.config
  | .yaml, s => do
    let d ← Yaml.Document.read? s.toList
    match d.root with
    | none => return Config.default
    | some root => d.reading.config root

/-! ## Writing -/

/-- The choices of the output section, with their names. -/
def Config.outputFields (c : Config) : List (String × String) :=
  [("level", c.level.name), ("color", c.color.name), ("theme", c.theme.name)]

def Config.ciFields (c : Config) : List (String × String) := [("provider", c.provider.name)]

/-- The sections of a file, with their fields. -/
def Config.sections (c : Config) : List (String × List (String × String)) :=
  [("output", c.outputFields), ("ci", c.ciFields)]

/-- A choice in quotes. Names of choices need no escapes. -/
def inQuotes (name : String) : String := "\"" ++ name ++ "\""

/-- A TOML file: a header for each section, an empty line between sections. -/
def Config.toToml (c : Config) : String :=
  "\n".intercalate (c.sections.map fun s =>
    "[" ++ s.1 ++ "]\n" ++ String.join (s.2.map fun f => f.1 ++ " = " ++ inQuotes f.2 ++ "\n"))

/-- A JSON file, indented by two, with no line feed at its end. -/
def Config.toJson (c : Config) : String :=
  "\x7b\n" ++ ",\n".intercalate (c.sections.map fun s =>
    "  " ++ inQuotes s.1 ++ ": \x7b\n" ++
      ",\n".intercalate (s.2.map fun f => "    " ++ inQuotes f.1 ++ ": " ++ inQuotes f.2) ++
      "\n  \x7d") ++ "\n\x7d"

/-- The configuration as a YAML value. -/
def Config.toNode (c : Config) : Yaml.Node :=
  .map (c.sections.map fun s => (.text s.1, .map (s.2.map fun f => (.text f.1, .text f.2))))

/-- A configuration as a file in a format. -/
def Format.write : Format → Config → String
  | .toml, c => c.toToml
  | .json, c => c.toJson
  | .yaml, c => String.ofList c.toNode.document

end StepLog
