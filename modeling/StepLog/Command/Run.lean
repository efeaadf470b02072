/-
  Running an invocation.

  First the configuration is loaded and what the command line says is put over it; then a
  script is read, if one is asked for; only then is anything printed. A fault ends the run and
  takes nothing back, so it is this order that keeps a run that fails from printing. What is
  printed is one session: a group with one step in it.
-/
import StepLog.Command.Line
import StepLog.Config.Load
import StepLog.Session

namespace StepLog.Command

/-- What a run can see. -/
structure Inputs where
  files : Files
  /-- The directory of the user's configuration. -/
  userDirectory : Option Path
  standardInput : Text.Bytes
  surroundings : Surroundings

/-- Why a run fails. -/
inductive RunFault
  | config (fault : LoadFault)
  | scriptFile (path : Path)
  | standardInput
deriving DecidableEq

def RunFault.message : RunFault → String
  | config fault => fault.message
  | scriptFile path => "Failed to read script: " ++ path.shown
  | standardInput => "Failed to read script from stdin"

/-! ## Before printing -/

/-- Puts overrides over a configuration, choice by choice. -/
def Overrides.apply (o : Overrides) (c : Config) : Config :=
  ⟨o.level.getD c.level, o.color.getD c.color, o.theme.getD c.theme, o.provider.getD c.provider⟩

/-- The configuration in force. -/
def Invocation.configured (v : Invocation) (i : Inputs) : Except LoadFault Config :=
  (Config.load i.files i.userDirectory v.config).map v.overrides.apply

/-- The file that a script is read from; a dash stands for standard input. -/
def scriptFile? (file : Option Path) : Option Path := file.filter fun p => !p.same (.ofString "-")

def readScript (i : Inputs) (file : Option Path) : Except RunFault String :=
  match scriptFile? file with
  | some path =>
    match (i.files path).text? with
    | some text => .ok text
    | none => .error (.scriptFile path)
  | none =>
    match Text.decode? i.standardInput with
    | some text => .ok text
    | none => .error .standardInput

/-- The parameters of pairs. A key that comes again takes the later value. -/
def paramsOf (pairs : List Pair) : Params := .ofList (pairs.map fun p => (p.key, .text p.value))

/-- The step that prints a task. -/
def Task.step (i : Inputs) : Task → Except RunFault Step
  | .script shell file => (readScript i file).map (Step.script shell)
  | .params pairs => .ok (.params (paramsOf pairs))

/-! ## Printing -/

/-- A step inside the group that a heading asks for. -/
def Heading.around (h : Heading) (step : Step) : Step := .group h.name h.description .close [step]

/-- The entries of a step that is printed under a configuration. -/
def printed (c : Config) (s : Surroundings) (step : Step) : List Entry :=
  (Setting.mk c.printer .none).session (some (.new .writer c.level)) s [step]

/-! ## Runs -/

/-- What a run has done so far. -/
structure Trail where
  /-- The configuration in force, once it is known. -/
  config : Option Config
  /-- What was printed. -/
  entries : List Entry

def Trail.empty : Trail := ⟨none, []⟩

/-- A part of a run, which may fail. What was done before a fault stays done. -/
abbrev Run := ExceptT RunFault (StateM Trail)

/-- Announces the configuration in force. -/
def announce (c : Config) : Run Unit := modify fun trail => { trail with config := some c }

def print (entries : List Entry) : Run Unit :=
  modify fun trail => { trail with entries := trail.entries ++ entries }

/-- Carries an invocation out. -/
def Invocation.execute (v : Invocation) (i : Inputs) : Run Unit := do
  let c ← (v.configured i).mapError RunFault.config
  announce c
  let step ← v.task.step i
  print (printed c i.surroundings (v.heading.around step))

/-- What comes of a run. -/
structure Report extends Trail where
  /-- Why the run failed, if it did. -/
  fault? : Option RunFault

def Invocation.run (v : Invocation) (i : Inputs) : Report :=
  match (v.execute i).run.run .empty with
  | (.ok _, trail) => ⟨trail, none⟩
  | (.error fault, trail) => ⟨trail, some fault⟩

/-- What went to standard output, in order. -/
def Report.output (r : Report) : List Payload :=
  r.entries.flatMap fun e => e.recorded.map Call.payload

def Report.notices (r : Report) : List Notice := r.entries.flatMap Entry.notices

end StepLog.Command
