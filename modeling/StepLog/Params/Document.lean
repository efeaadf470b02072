/-
  Parameters as a YAML document under `with:`.

  Each parameter is written by itself, indented by two. A text of several lines is always
  a literal block, one line of the block for each line of the text, whatever characters it
  holds; every other value takes the form that YAML gives it.
-/
import StepLog.Params.Basic
import StepLog.Text.Characters
import StepLog.Text.Lines
import StepLog.Yaml.Layout
import StepLog.Yaml.Opening

namespace StepLog

/-- Why parameters are not written. -/
inductive MarshalFault
  | value (fault : ValueFault)
  | opening (fault : Yaml.OpeningFault)
deriving DecidableEq

def MarshalFault.message : MarshalFault → String
  | .value fault => "failed to marshal builtin: " ++ fault.message
  | .opening fault => "failed to marshal builtin: " ++ fault.message

namespace Params

/-- A name as YAML spells it. -/
def keySpelling (name : String) : List Char := Text.trimEnd (Yaml.Node.text name).document

/-- The header of a literal block. Spaces at the start of the text would be taken for
indentation, so the header then gives the width of the indentation. -/
def blockHeader (text : List Char) : List Char :=
  if text.head? = some ' ' then "|2-".toList else "|-".toList

/-- A line of a literal block; an empty one is not indented. -/
def blockLine (line : List Char) : List Char :=
  (if line.isEmpty then [] else "    ".toList ++ line) ++ ['\n']

/-- A text as a literal block under a key, which is spelled already. -/
def literalBlock (key text : List Char) : List Char :=
  "  ".toList ++ key ++ ": ".toList ++ blockHeader text ++ ['\n'] ++
    (Text.lines text).flatMap blockLine

/-- A parameter whose text becomes a literal block. -/
def blockEntry (name : String) (text : List Char) : List Char :=
  literalBlock (keySpelling name) text

/-- A parameter in the form that YAML gives it, indented by two. -/
def plainEntry (name : String) (value : Yaml.Node) : List Char :=
  (Text.lines (Yaml.Node.map [(.text name, value)]).document).flatMap fun line =>
    "  ".toList ++ line ++ ['\n']

/-- The lines of one parameter. -/
def entry (name : String) (value : Value) : Except MarshalFault (List Char) :=
  match value.toNode with
  | .error fault => .error (.value fault)
  | .ok (.text s) =>
    .ok (if s.toList.contains '\n' then blockEntry name s.toList else plainEntry name (.text s))
  | .ok node =>
    match (Yaml.Node.map [(.text name, node)]).fault? with
    | some fault => .error (.opening fault)
    | none => .ok (plainEntry name node)

/-- The lines of all parameters, or the fault of the first that has one. -/
def body : List (String × Value) → Except MarshalFault (List Char)
  | [] => .ok []
  | (name, value) :: rest =>
    match entry name value, body rest with
    | .error fault, _ => .error fault
    | .ok _, .error fault => .error fault
    | .ok lines, .ok more => .ok (lines ++ more)

/-- The document of parameters. -/
def document (ps : Params) : Except MarshalFault String :=
  if ps.entries.isEmpty then .ok "with: \x7b\x7d\n"
  else (body ps.entries).map fun lines => "with:\n" ++ String.ofList lines

end Params

end StepLog
