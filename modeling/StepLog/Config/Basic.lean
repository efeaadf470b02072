/-
  The configuration: how much is printed, how it is colored, and for whom groups are marked.
-/
import StepLog.Ci.Detectors

namespace StepLog

/-! ## Names of choices -/

def ColorChoice.name : ColorChoice → String
  | .auto => "auto"
  | .always => "always"
  | .never => "never"

def ColorChoice.ofName? : String → Option ColorChoice
  | "auto" => some .auto
  | "always" => some .always
  | "never" => some .never
  | _ => none

def ThemeChoice.name : ThemeChoice → String
  | .auto => "auto"
  | .light => "light"
  | .dark => "dark"

def ThemeChoice.ofName? : String → Option ThemeChoice
  | "auto" => some .auto
  | "light" => some .light
  | "dark" => some .dark
  | _ => none

def CiProvider.name : CiProvider → String
  | .auto => "auto"
  | .none => "none"
  | .github => "github"
  | .gitlab => "gitlab"

def CiProvider.ofName? : String → Option CiProvider
  | "auto" => some .auto
  | "none" => some .none
  | "github" => some .github
  | "gitlab" => some .gitlab
  | _ => Option.none

/-! ## Configurations -/

structure Config where
  /-- The least severity that is printed. -/
  level : Severity
  color : ColorChoice
  theme : ThemeChoice
  provider : CiProvider
deriving DecidableEq

/-- What holds where a file says nothing. -/
def Config.default : Config := ⟨.info, .auto, .auto, .auto⟩

/-- The line that announces a configuration. -/
def Config.announcement (c : Config) : String :=
  "Printing at level " ++ c.level.name ++ " (color: " ++ c.color.name.capitalize ++ ", theme: " ++
    c.theme.name.capitalize ++ ", ci: " ++ c.provider.name.capitalize ++ ")"

end StepLog
