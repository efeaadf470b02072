/-
  What may stand on the command line: options, flags and subcommands.

  The program has two subcommands. Options before the subcommand and behind it are read in
  different scopes; some options are known in all of them. A value goes to a slot; slots
  other than options take what stands on the command line without a name.
-/
import StepLog.Command.Pair
import StepLog.Config.Basic
import StepLog.Files.Path

namespace StepLog.Command

/-- Where an argument stands: before the subcommand, or behind which one. -/
inductive Scope
  | top
  | script
  | params
deriving DecidableEq

/-- What a value is for. -/
inductive Slot
  | config
  | level
  | color
  | theme
  | provider
  | shell
  | group
  | description
  | file
  | pairs
deriving DecidableEq

/-- What takes no value and ends the reading. -/
inductive Flag
  | help
  | version
deriving DecidableEq

/-- What can be asked for by name. -/
inductive Switch
  | option (slot : Slot)
  | flag (flag : Flag)
deriving DecidableEq

/-- Why a command line asks for nothing that can be run. -/
inductive UsageFault
  /-- Help or the version is asked for. -/
  | asked (flag : Flag)
  /-- Nothing is given at all. -/
  | nothingGiven
  | noCommand
  | noPairs
  /-- The argument is in the place of a subcommand. -/
  | unknownCommand (argument : Text.Bytes)
  /-- A subcommand stands behind the end of options. -/
  | commandBehindDashes (argument : Text.Bytes)
  | unknownSwitch (argument : Text.Bytes)
  /-- An argument too many. -/
  | surplus (argument : Text.Bytes)
  /-- A value is attached to a flag. -/
  | flagWithValue (flag : Flag)
  | repeated (slot : Slot)
  | noValue (slot : Slot)
  | badValue (slot : Slot) (value : Text.Bytes)
  /-- The value has to be text. -/
  | notText (slot : Slot)
  | badPair (fault : PairFault)
deriving DecidableEq

/-! ## Names -/

/-- The name of an option behind two dashes; other slots are called by what they show. -/
def Slot.name : Slot → String
  | config => "config"
  | level => "level"
  | color => "color"
  | theme => "theme"
  | provider => "ci"
  | shell => "shell"
  | group => "group"
  | description => "description"
  | file => "FILE"
  | pairs => "PAIRS"

/-- The letter of an option behind one dash. -/
def Slot.letter? : Slot → Option Char
  | config => some 'c'
  | level => some 'l'
  | shell => some 's'
  | group => some 'g'
  | description => some 'd'
  | _ => none

def Flag.name : Flag → String
  | help => "help"
  | version => "version"

def Flag.letter : Flag → Char
  | help => 'h'
  | version => 'V'

def Switch.name : Switch → String
  | option slot => slot.name
  | flag f => f.name

def Switch.letter? : Switch → Option Char
  | option slot => slot.letter?
  | flag f => some f.letter

/-- The options of every scope. -/
def commonOptions : List Slot := [.config, .level, .color, .theme, .provider]

/-- What is known by name in a scope. -/
def Scope.switches : Scope → List Switch
  | top => commonOptions.map Switch.option ++ [.flag .help, .flag .version]
  | script => commonOptions.map Switch.option ++
    [.option .shell, .option .group, .option .description, .flag .help]
  | params => commonOptions.map Switch.option ++ [.option .group, .option .description, .flag .help]

/-- The switch with a name, which is followed exactly. -/
def Scope.named? (scope : Scope) (name : Text.Bytes) : Option Switch :=
  scope.switches.find? fun s => Text.encode s.name = name

/-- The switch with a letter. -/
def Scope.lettered? (scope : Scope) (letter : UInt8) : Option Switch :=
  scope.switches.find? fun s => s.letter?.any fun c => c.toNat = letter.toNat

/-- The scope that a subcommand opens. -/
def Scope.ofCommand? (argument : Text.Bytes) : Option Scope :=
  if argument = Text.encode "script" then some .script
  else if argument = Text.encode "with" then some .params
  else none

/-- The subcommand for help. -/
def isHelp (argument : Text.Bytes) : Bool := argument = Text.encode "help"

def isCommand (argument : Text.Bytes) : Bool :=
  isHelp argument || (Scope.ofCommand? argument).isSome

end StepLog.Command
