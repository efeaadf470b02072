/-
  Severities of printed text, least severe first.

  A sink has a minimum severity; a text passes if its own severity is at least
  that. The order is the order of ranks.
-/
import StepLog.Text.Characters

namespace StepLog

inductive Severity
  | debug
  | info
  | warn
  | error
  | fatal
deriving DecidableEq, Inhabited

namespace Severity

/-- All severities, least severe first. -/
def all : List Severity := [debug, info, warn, error, fatal]

def rank : Severity → Nat
  | debug => 0
  | info => 1
  | warn => 2
  | error => 3
  | fatal => 4

instance : LE Severity := ⟨fun a b => a.rank ≤ b.rank⟩

instance (a b : Severity) : Decidable (a ≤ b) := inferInstanceAs (Decidable (a.rank ≤ b.rank))

/-- A text of severity `s` passes a minimum severity `level`. -/
def passes (s level : Severity) : Bool := decide (level ≤ s)

/-- The name used in configuration and on the command line. -/
def name : Severity → String
  | debug => "debug"
  | info => "info"
  | warn => "warn"
  | error => "error"
  | fatal => "fatal"

/-- The four letters that head a diagnostic line. -/
def label : Severity → String
  | debug => "DEBU"
  | info => "INFO"
  | warn => "WARN"
  | error => "ERRO"
  | fatal => "FATA"

/-- The severity of an exact name; `warning` is a second name of `warn`. -/
def ofName? : String → Option Severity
  | "debug" => some debug
  | "info" => some info
  | "warn" => some warn
  | "warning" => some warn
  | "error" => some error
  | "fatal" => some fatal
  | _ => none

/-- A text that names no severity, trimmed and in lower case. -/
structure Unknown where
  text : String

def Unknown.message (u : Unknown) : String :=
  "Invalid configuration: unknown log level '" ++ u.text ++ "'"

/-- Reads a name with blank characters around it, in any ASCII case. -/
def parse (s : String) : Except Unknown Severity :=
  let t := String.ofList ((Text.trim s.toList).map Char.toLower)
  match ofName? t with
  | some v => .ok v
  | none => .error ⟨t⟩

end Severity

end StepLog
