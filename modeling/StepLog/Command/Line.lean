/-
  Reading a command line.

  Arguments are read from left to right. An option waits for its value until something
  follows: the next argument is its value unless it looks like a switch. Each scope takes
  an option at most once, and a value is looked at when the next switch or operand is
  reached or the scope ends, so of two faults the one that is reached first is told. Behind
  a subcommand everything belongs to its scope, which is read to its end before the scope
  around it.
-/
import StepLog.Command.Usage

namespace StepLog.Command

open Text (Bytes)

/-! ## What is asked for -/

/-- Values that win over those of the configuration. -/
structure Overrides where
  level : Option Severity
  color : Option ColorChoice
  theme : Option ThemeChoice
  provider : Option CiProvider
deriving DecidableEq

/-- Name and description of the group around the output; no name, no group. -/
structure Heading where
  name : String
  description : String
deriving DecidableEq

inductive Task
  /-- Print a script from a file, or from standard input. -/
  | script (shell : String) (file : Option Path)
  | params (pairs : List Pair)
deriving DecidableEq

/-- A command line that asks for something. -/
structure Invocation where
  /-- The configuration file that is asked for. -/
  config : Option Path
  overrides : Overrides
  heading : Heading
  task : Task
deriving DecidableEq

/-! ## Values -/

/-- The values that a scope has taken. -/
structure Given where
  config : Option Path
  level : Option Severity
  color : Option ColorChoice
  theme : Option ThemeChoice
  provider : Option CiProvider
  shell : Option String
  group : Option String
  description : Option String
  file : Option Path
  pairs : List Pair
deriving DecidableEq

def Given.nothing : Given := ⟨none, none, none, none, none, none, none, none, none, []⟩

/-- A value that must not be empty, text or not. -/
def readPath (slot : Slot) (value : Bytes) : Except UsageFault Path :=
  if value.isEmpty then .error (.badValue slot value) else .ok value

def readText (slot : Slot) (value : Bytes) : Except UsageFault String :=
  match Text.decode? value with
  | some s => .ok s
  | none => .error (.notText slot)

/-- A choice by its exact name. -/
def readChoice {α : Type} (slot : Slot) (ofName? : String → Option α) (value : Bytes) :
    Except UsageFault α :=
  match (Text.decode? value).bind ofName? with
  | some x => .ok x
  | none => .error (.badValue slot value)

def readLevel (value : Bytes) : Except UsageFault Severity :=
  readChoice .level Severity.ofName? value

def readPair (value : Bytes) : Except UsageFault Pair := do
  match Pair.read (← readText .pairs value) with
  | .ok pair => return pair
  | .error fault => throw (.badPair fault)

/-- The value of a slot that has at most one. That it is the second one is told before
anything is said about it. -/
def readOnce {α : Type} (slot : Slot) (old : Option α) (read : Bytes → Except UsageFault α)
    (values : List Bytes) : Except UsageFault (Option α) :=
  match values with
  | [] => .error (.noValue slot)
  | value :: _ => if old.isSome then .error (.repeated slot) else (read value).map some

/-- Puts values into a slot. -/
def Given.put (g : Given) (slot : Slot) (values : List Bytes) : Except UsageFault Given :=
  match slot with
  | .config => do
    let v ← readOnce .config g.config (readPath .config) values
    return { g with config := v }
  | .level => do
    let v ← readOnce .level g.level readLevel values
    return { g with level := v }
  | .color => do
    let v ← readOnce .color g.color (readChoice .color ColorChoice.ofName?) values
    return { g with color := v }
  | .theme => do
    let v ← readOnce .theme g.theme (readChoice .theme ThemeChoice.ofName?) values
    return { g with theme := v }
  | .provider => do
    let v ← readOnce .provider g.provider (readChoice .provider CiProvider.ofName?) values
    return { g with provider := v }
  | .shell => do
    let v ← readOnce .shell g.shell (readText .shell) values
    return { g with shell := v }
  | .group => do
    let v ← readOnce .group g.group (readText .group) values
    return { g with group := v }
  | .description => do
    let v ← readOnce .description g.description (readText .description) values
    return { g with description := v }
  | .file => do
    let v ← readOnce .file g.file (readPath .file) values
    return { g with file := v }
  | .pairs => do
    let vs ← values.mapM readPair
    return { g with pairs := g.pairs ++ vs }

/-! ## Arguments of a scope -/

/-- How far a scope has been read. -/
structure Progress where
  given : Given
  /-- The slot that was reached last, with the values it will take. An option without a
  value still waits for it. -/
  pending : Option (Slot × List Bytes)

namespace Progress

def start : Progress := ⟨.nothing, none⟩

/-- Hands the pending values over. -/
def settle (p : Progress) : Except UsageFault Progress :=
  match p.pending with
  | none => .ok p
  | some (slot, values) => do
    let given ← p.given.put slot values
    return ⟨given, none⟩

/-- An option waits for its value. -/
def waits (p : Progress) : Bool := p.pending.any fun e => e.2.isEmpty

/-- Reaches a slot with values of it. -/
def reach (p : Progress) (slot : Slot) (values : List Bytes) : Except UsageFault Progress := do
  let p ← p.settle
  return { p with pending := some (slot, values) }

/-- Takes a switch with the value that is attached to it. An attached value is looked at
at once. -/
def switch (p : Progress) (s : Switch) (attached : Option Bytes) : Except UsageFault Progress :=
  match s, attached with
  | .option slot, none => p.reach slot []
  | .option slot, some value => do (← p.reach slot [value]).settle
  | .flag f, none => do
    let _ ← p.settle
    throw (.asked f)
  | .flag f, some _ => .error (.flagWithValue f)

def equalsSign : UInt8 := 0x3D

/-- An argument with two dashes: a name, perhaps with a value behind an equals sign. -/
def long (scope : Scope) (p : Progress) (body : Bytes) : Except UsageFault Progress :=
  match scope.named? (body.takeWhile (· ≠ equalsSign)) with
  | none => .error (.unknownSwitch body)
  | some s => p.switch s (body.dropWhile (· ≠ equalsSign)).tail?

/-- An argument with one dash: a letter, perhaps with a value, which an equals sign may
introduce. What follows a flag does not matter, for a flag ends the reading. -/
def short (scope : Scope) (p : Progress) (letter : UInt8) (rest : Bytes) :
    Except UsageFault Progress :=
  match scope.lettered? letter, rest with
  | none, _ => .error (.unknownSwitch (letter :: rest))
  | some (.flag f), _ => p.switch (.flag f) none
  | some s, [] => p.switch s none
  | some s, c :: cs => p.switch s (some (if c = equalsSign then cs else c :: cs))

/-- An operand: an argument that is neither a switch nor the value of one. -/
def operand (scope : Scope) (p : Progress) (argument : Bytes) : Except UsageFault Progress :=
  match scope with
  | .top => .error (.unknownCommand argument)
  | .script =>
    if p.given.file.isSome || p.pending.any (·.1 = .file) then .error (.surplus argument)
    else p.reach .file [argument]
  | .params =>
    match p.pending with
    | some (.pairs, values) => .ok { p with pending := some (.pairs, values ++ [argument]) }
    | _ => p.reach .pairs [argument]

/-- An argument before the end of options. -/
def argument (scope : Scope) (p : Progress) (arg : Bytes) : Except UsageFault Progress :=
  match arg with
  | 0x2D :: 0x2D :: body => p.long scope body
  | 0x2D :: letter :: rest => p.short scope letter rest
  | _ =>
    match p.pending with
    | some (slot, []) => .ok { p with pending := some (slot, [arg]) }
    | _ => p.operand scope arg

/-- An argument behind the end of options. -/
def plain (scope : Scope) (p : Progress) (arg : Bytes) : Except UsageFault Progress :=
  if scope = .top && isCommand arg then .error (.commandBehindDashes arg) else p.operand scope arg

/-- The argument that ends the options. -/
def dashes : Bytes := [0x2D, 0x2D]

/-- The arguments of a scope without subcommands. -/
def arguments (scope : Scope) : Progress → List Bytes → Except UsageFault Progress
  | p, [] => .ok p
  | p, arg :: args =>
    if arg = dashes then args.foldlM (plain scope) p
    else do
      let p ← p.argument scope arg
      p.arguments scope args

/-- Ends a scope. Where it has no level, the level of the environment has to make sense. -/
def finish (level : Option Bytes) (p : Progress) : Except UsageFault Given := do
  let p ← p.settle
  match p.given.level, level with
  | none, some value =>
    let _ ← readLevel value
    return p.given
  | _, _ => return p.given

end Progress

/-! ## The whole line -/

/-- What the top of a command line comes to: its own values, and those of the subcommand. -/
structure Parts where
  outer : Given
  /-- The scope of the subcommand with its values. -/
  inner : Option (Scope × Given)

/-- Help is asked for by a subcommand; names of subcommands may follow, but none of them
has subcommands. -/
def helpFault : List Bytes → UsageFault
  | [] => .asked .help
  | [name] => if isCommand name then .asked .help else .unknownCommand name
  | name :: other :: _ => .unknownCommand (if isCommand name then other else name)

/-- Everything behind a subcommand. -/
def readInner (level : Option Bytes) (scope : Scope) (args : List Bytes) :
    Except UsageFault Given := do
  let given ← (← Progress.start.arguments scope args).finish level
  if scope = .params && given.pairs.isEmpty then throw .noPairs
  return given

/-- The arguments of the top. -/
def readParts (level : Option Bytes) : Progress → List Bytes → Except UsageFault Parts
  | p, [] => do return ⟨← p.finish level, none⟩
  | p, arg :: args =>
    if !p.waits && isHelp arg then .error (helpFault args)
    else
      match if p.waits then none else Scope.ofCommand? arg with
      | some scope => do
        let inner ← readInner level scope args
        let outer ← p.finish level
        return ⟨outer, some (scope, inner)⟩
      | none =>
        if arg = Progress.dashes then do
          let p ← args.foldlM (Progress.plain .top) p
          return ⟨← p.finish level, none⟩
        else do
          let p ← p.argument .top arg
          readParts level p args

/-- The task of a subcommand. -/
def Given.task (g : Given) : Scope → Task
  | .params => .params g.pairs
  | _ => .script (g.shell.getD "sh") g.file

/-- What the values ask for. What stands behind the subcommand wins over what stands before
it, and the level of the environment comes last. -/
def Given.invocation (inner outer : Given) (scope : Scope) (level : Option Severity) : Invocation where
  config := inner.config.or outer.config
  overrides :=
    { level := (inner.level.or outer.level).or level
      color := inner.color.or outer.color
      theme := inner.theme.or outer.theme
      provider := inner.provider.or outer.provider }
  heading := ⟨inner.group.getD "", inner.description.getD ""⟩
  task := inner.task scope

/-- Reads a command line; `level` is the level that the environment asks for. -/
def Invocation.read (level : Option Bytes) (args : List Bytes) : Except UsageFault Invocation := do
  let parts ← readParts level .start args
  match parts.inner with
  | some (scope, inner) =>
    return inner.invocation parts.outer scope (level.bind fun value => (readLevel value).toOption)
  | none =>
    throw (if parts.outer = Given.nothing && level.isNone then .nothingGiven else .noCommand)

end StepLog.Command
