/-
  Printers: scripts, parameters and group markers on a sink.

  What a printer does is a list of actions: calls on the sink, and notices about how it
  went for whoever follows the program itself. The actions depend on what the sink says is
  enabled and on the surroundings, not on what becomes of the calls: a printer goes on after
  a refusal and never reports it to its caller. What it cannot color it prints plain.
-/
import StepLog.Config.Basic
import StepLog.Params.Document
import StepLog.Shell.Lexer
import StepLog.Sink.Basic
import StepLog.Style.Paint
import StepLog.Yaml.Lines

namespace StepLog

/-- What a call is made for; it decides what is noticed if the call fails. -/
inductive Purpose
  | print
  | openGroup
  | closeGroup
deriving DecidableEq

/-- What is worth noticing about a run of a printer. -/
inductive Notice
  | printingScript (shell : String) (color : Bool)
  | plainScriptLine (shell : String) (fault : LexFault)
  | plainParams (fault : LexFault)
  | unwritableParams (fault : MarshalFault)
  | openingGroup (environment : CiEnvironment) (name : String)
  | failed (purpose : Purpose) (refusal : Refusal)
deriving DecidableEq

def Purpose.failure : Purpose → String
  | print => "failed to write to log sink: "
  | openGroup => "failed to open CI group: "
  | closeGroup => "failed to close CI group: "

def Notice.message : Notice → String
  | printingScript shell color =>
    "Printing " ++ shell ++ " script (color: " ++ (if color then "true" else "false") ++ ")"
  | plainScriptLine shell fault => "failed to highlight " ++ shell ++ " line: " ++ fault.message
  | plainParams fault => "failed to highlight builtin: " ++ fault.message
  | unwritableParams fault => fault.message
  | openingGroup environment name => "Opening " ++ environment.name ++ " group " ++ name
  | failed purpose refusal => purpose.failure ++ refusal.message

inductive Action
  | notice (n : Notice)
  | call (purpose : Purpose) (c : Call)
deriving DecidableEq

structure Printer where
  color : ColorChoice
  detectors : Detectors
  shellLexer : Lexer
  yamlLexer : Lexer

namespace Printer

/-- A printer with the lexers for shell text and for key/value text. -/
def new (color : ColorChoice) (detectors : Detectors) : Printer :=
  ⟨color, detectors, Shell.lexer, Yaml.lexer⟩

def standard : Printer := new .auto .standard

/-- Colors are decided anew for every print. -/
def isColored (p : Printer) (s : Surroundings) : Bool := p.color.enabled p.detectors s

def theme (p : Printer) (s : Surroundings) : Theme := p.detectors.theme s

/-- Prints text at a severity. -/
def emit (severity : Severity) (text : String) : Action := .call .print ⟨.at severity, .text text⟩

/-! ## Scripts -/

/-- The actions that print one line of a script, without its line ending. -/
def scriptLine (p : Printer) (s : Surroundings) (shell line : String) : List Action :=
  let put (text : String) := emit .info ("  " ++ text ++ "\n")
  if p.isColored s then
    match p.shellLexer.tokenize line with
    | .ok tokens => [put (Style.paint .shell (p.theme s) tokens)]
    | .error fault => [.notice (.plainScriptLine shell fault), put line]
  else [put line]

/-- Prints a script line by line, indented by two, on a sink that says which severities are
enabled. The label names the shell in notices. -/
def scriptOn (p : Printer) (s : Surroundings) (enabled : Severity → Bool) (label text : String) :
    List Action :=
  if !enabled .info then []
  else
    let shell := if label.isEmpty then "shell" else label
    .notice (.printingScript shell (p.isColored s)) ::
      (Text.linesOf text).flatMap (p.scriptLine s shell)

/-- Prints a script on a sink at `level`. -/
def script (p : Printer) (s : Surroundings) (level : Severity) (label text : String) :
    List Action :=
  p.scriptOn s (·.passes level) label text

/-! ## Parameters -/

/-- A text that ends with a line feed. -/
def terminated (text : String) : String :=
  if text.toList.getLast? = some '\n' then text else text ++ "\n"

/-- The actions that print a document of parameters. -/
def paramsDocument (p : Printer) (s : Surroundings) (document : String) : List Action :=
  if p.isColored s then
    match p.yamlLexer.tokenize document with
    | .ok tokens => [emit .info (terminated (Style.paint .keyValue (p.theme s) tokens))]
    | .error fault => [.notice (.plainParams fault), emit .info (terminated document)]
  else [emit .info (terminated document)]

/-- The warning in the place of parameters that cannot be written. -/
def paramsWarning (p : Printer) (s : Surroundings) (fault : MarshalFault) : String :=
  Style.severityLabel .warn (p.theme s) (p.isColored s) ++ " " ++ fault.message ++ "\n"

/-- Prints parameters as a document on a sink that says which severities are enabled; if one
of them cannot be written, a warning and nothing else. -/
def paramsOn (p : Printer) (s : Surroundings) (enabled : Severity → Bool) (ps : Params) :
    List Action :=
  if !enabled .info then []
  else match ps.document with
    | .ok document => p.paramsDocument s document
    | .error fault =>
      [.notice (.unwritableParams fault), emit .warn (p.paramsWarning s fault)]

/-- Prints parameters on a sink at `level`. -/
def params (p : Printer) (s : Surroundings) (level : Severity) (ps : Params) : List Action :=
  p.paramsOn s (·.passes level) ps

/-! ## Groups -/

/-- Writes a marker past the gate. -/
def mark (purpose : Purpose) (m : Marker) : Action := .call purpose ⟨.raw, .marker m⟩

end Printer

/-- A group that was opened, with the closing marker that it still owes. -/
structure Group where
  owed : Option Marker

/-- How a group ends. Both ways write the closing marker that is owed. -/
inductive Ending
  | close
  | drop
deriving DecidableEq

namespace Group

/-- A group without markers. -/
def inert : Group := ⟨none⟩

def isOpen (g : Group) : Bool := g.owed.isSome

/-- Writes the closing marker, which is owed no longer. -/
def finish (g : Group) : List Action × Group :=
  match g.owed with
  | none => ([], g)
  | some closing => ([Printer.mark .closeGroup closing], inert)

/-- Ends a group. A group that is closed is finished and then dropped; dropping finishes it. -/
def finishBy (g : Group) : Ending → List Action
  | .drop => g.finish.1
  | .close => g.finish.1 ++ g.finish.2.finish.1

end Group

/-- Opens a group. Its markers are fixed here; without a sink or a name, or outside CI, it
has none. -/
def Printer.openGroup (p : Printer) (s : Surroundings) (hasSink : Bool)
    (name description : String) : List Action × Group :=
  let environment := p.detectors.ciEnvironment s
  if !hasSink || name.isEmpty then ([], .inert)
  else match Marker.pair? environment name description with
    | none => ([], .inert)
    | some (opening, closing) =>
      ([.notice (.openingGroup environment name), Printer.mark .openGroup opening], ⟨some closing⟩)

/-! ## From a configuration -/

/-- A printer with the choices of a configuration; what it leaves open is read from the
environment. -/
def Config.printer (c : Config) : Printer :=
  .new c.color ((Detectors.standard.withProvider c.provider).withTheme c.theme)

end StepLog
