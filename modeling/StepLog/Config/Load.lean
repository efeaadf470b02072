/-
  Loading and saving configurations.

  One file at most is consulted: the one that is asked for, or else the first candidate
  that exists. What it lacks has defaults; it is an error if it cannot be read or makes no
  sense, whatever other candidates hold.
-/
import StepLog.Config.Format
import StepLog.Files.Path

namespace StepLog

/-- Why a configuration is not loaded. -/
inductive LoadFault
  | unreadable (path : Path)
  /-- The text is nothing in its format, or nothing in any, if its format is not known. -/
  | malformed (format : Option Format) (path : Path)
deriving DecidableEq

def LoadFault.message : LoadFault → String
  | unreadable path => "Failed to read config file: " ++ path.shown
  | malformed (some .toml) path => "Failed to parse TOML config: " ++ path.shown
  | malformed (some .json) path => "Failed to parse JSON config: " ++ path.shown
  | malformed (some .yaml) path => "Failed to parse YAML config: " ++ path.shown
  | malformed none path => "Failed to parse config file: " ++ path.shown

/-- A configuration is not saved because its file cannot be written. -/
structure SaveFault where
  path : Path

def SaveFault.message (f : SaveFault) : String :=
  "Failed to write config file: " ++ f.path.shown

/-- The format that an extension stands for. -/
def Format.ofExtension? : String → Option Format
  | "toml" => some .toml
  | "json" => some .json
  | "yaml" => some .yaml
  | "yml" => some .yaml
  | _ => none

/-- The format of the file at a path. -/
def Format.ofPath? (p : Path) : Option Format := p.extensionText?.bind ofExtension?

namespace Config

/-- The configuration that a text gives. A text of unknown format is tried in each. -/
def parse? (format : Option Format) (text : String) : Option Config :=
  match format with
  | some f => f.read? text
  | none => ((Format.toml.read? text).or (Format.json.read? text)).or (Format.yaml.read? text)

/-- The configuration of the file at a path. -/
def loadFrom (files : Files) (path : Path) : Except LoadFault Config :=
  match (files path).text? with
  | none => .error (.unreadable path)
  | some text =>
    match parse? (Format.ofPath? path) text with
    | none => .error (.malformed (Format.ofPath? path) path)
    | some config => .ok config

/-! ## Candidates -/

/-- The directory of the user's configuration: the one that is set, if it is absolute, or
else the usual one in the home directory. -/
def userDirectory? (configHome home : Option Path) : Option Path :=
  (configHome.filter Path.isAbsolute).or
    ((home.filter (!·.isEmpty)).map fun h => h.join (.ofString ".config"))

/-- The user's configuration file. -/
def userFile (directory : Path) : Path :=
  (directory.join (.ofString "runlog")).join (.ofString "config.toml")

/-- The files that are looked for, first to last. -/
def candidates (userDirectory : Option Path) : List Path :=
  [.ofString "./runlog.toml", .ofString "./runlog.json", .ofString "./runlog.yaml",
   .ofString "./runlog.yml"] ++ (userDirectory.map userFile).toList

/-- The file that is consulted, if any. -/
def consulted? (files : Files) (userDirectory : Option Path) (path : Option Path) : Option Path :=
  path.or ((candidates userDirectory).find? fun p => (files p).exists)

/-- The configuration that is in force: of the file that is consulted, or the default. -/
def load (files : Files) (userDirectory : Option Path) (path : Option Path) :
    Except LoadFault Config :=
  match consulted? files userDirectory path with
  | none => .ok Config.default
  | some p => loadFrom files p

/-- The text that is saved to a path: TOML unless the extension asks for something else. -/
def fileText (c : Config) (path : Path) : String :=
  ((Format.ofPath? path).getD .toml).write c

end Config

end StepLog
