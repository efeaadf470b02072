/-
  Detection of the surroundings: CI environment, color and background.

  A probe answers one question about the surroundings with yes or no. Probes are
  values: they read a variable of the environment, give a fixed answer, or ask a
  probe that the caller supplies and whose calls are counted.
-/
import StepLog.Style.Palette
import StepLog.Text.Characters
import StepLog.Text.Utf8

namespace StepLog

/-- The CI log renderer that group markers are written for. -/
inductive CiEnvironment
  | none
  | gitHubActions
  | gitLabCi
deriving DecidableEq

def CiEnvironment.name : CiEnvironment → String
  | .none => "None"
  | .gitHubActions => "GitHubActions"
  | .gitLabCi => "GitLabCi"

/-- Choice of a CI provider; `auto` asks the surroundings. -/
inductive CiProvider
  | auto
  | none
  | github
  | gitlab
deriving DecidableEq, Inhabited

/-- Choice of a theme; `auto` asks the terminal. -/
inductive ThemeChoice
  | auto
  | light
  | dark
deriving DecidableEq, Inhabited

/-- Choice of coloring; `auto` colors when the terminal supports it. -/
inductive ColorChoice
  | auto
  | always
  | never
deriving DecidableEq, Inhabited

/-! ## Surroundings -/

/-- The environment variables that matter, unset or with their bytes. -/
structure Variables where
  githubActions : Option Text.Bytes
  gitlabCi : Option Text.Bytes
  noColor : Option Text.Bytes
  /-- Terminal colors, foreground first and background last, between semicolons. -/
  colorFgBg : Option Text.Bytes

def Variables.unset : Variables := ⟨.none, .none, .none, .none⟩

/-- The answers of the probes that a caller supplies. -/
structure Answers where
  github : Bool
  gitlab : Bool
  noColor : Bool
  dark : Bool

/-- What probes can ask: environment variables, the terminal, the caller's probes. -/
structure Surroundings where
  environment : Variables
  /-- The terminal supports colors. -/
  terminal : Bool
  answers : Answers

/-! ## Probes -/

/-- How a probe finds its answer. -/
inductive Probe
  | fixed (answer : Bool)
  | environment
  | supplied
deriving DecidableEq

/-- The questions that are asked of a CI system. -/
inductive CiQuestion
  | github
  | gitlab
deriving DecidableEq

/-- A variable that must have the text `true`. -/
def saysTrue (v : Option Text.Bytes) : Bool := v.bind Text.decode? == some "true"

/-- The number of a color index: an optional `+`, then digits, of a value up to 255. -/
def colorIndex? (s : List Char) : Option Nat :=
  let digits := match s with
    | '+' :: rest => rest
    | _ => s
  (Text.digits? 10 digits).filter (· ≤ 255)

/-- The text after the last semicolon. -/
def lastField (s : List Char) : List Char := (s.reverse.takeWhile (· ≠ ';')).reverse

/-- The background is dark for the indices 0 to 6 and 8, and where none can be read. -/
def backgroundIsDark (colorFgBg : Option String) : Bool :=
  match colorFgBg.bind fun s => colorIndex? (Text.trim (lastField s.toList)) with
  | some n => n ≤ 6 || n = 8
  | none => true

structure Detectors where
  github : Probe
  gitlab : Probe
  noColor : Probe
  darkBackground : Probe
deriving DecidableEq

namespace Detectors

/-- Detectors that read the environment. -/
def standard : Detectors := ⟨.environment, .environment, .environment, .environment⟩

/-- Detectors of a plain dark terminal with color allowed. -/
def plain : Detectors := ⟨.fixed false, .fixed false, .fixed false, .fixed true⟩

/-- Detectors that ask the caller's probes. -/
def supplied : Detectors := ⟨.supplied, .supplied, .supplied, .supplied⟩

def isGithub (d : Detectors) (s : Surroundings) : Bool :=
  match d.github with
  | .fixed b => b
  | .environment => saysTrue s.environment.githubActions
  | .supplied => s.answers.github

def isGitlab (d : Detectors) (s : Surroundings) : Bool :=
  match d.gitlab with
  | .fixed b => b
  | .environment => saysTrue s.environment.gitlabCi
  | .supplied => s.answers.gitlab

/-- Color is refused by a variable that is set and not empty. -/
def refusesColor (d : Detectors) (s : Surroundings) : Bool :=
  match d.noColor with
  | .fixed b => b
  | .environment => s.environment.noColor.any (!·.isEmpty)
  | .supplied => s.answers.noColor

def isDark (d : Detectors) (s : Surroundings) : Bool :=
  match d.darkBackground with
  | .fixed b => b
  | .environment => backgroundIsDark (s.environment.colorFgBg.bind Text.decode?)
  | .supplied => s.answers.dark

/-- The CI environment. GitHub wins when both answer yes. -/
def ciEnvironment (d : Detectors) (s : Surroundings) : CiEnvironment :=
  if d.isGithub s then .gitHubActions
  else if d.isGitlab s then .gitLabCi
  else .none

/-- The caller's probes that detecting the CI environment calls: each one that is in
place, whatever the other answers. -/
def ciCalls (d : Detectors) : List CiQuestion :=
  (if d.github = .supplied then [.github] else []) ++
  (if d.gitlab = .supplied then [.gitlab] else [])

/-- Puts a chosen provider in the place of the CI probes. -/
def withProvider (d : Detectors) : CiProvider → Detectors
  | .auto => d
  | .none => { d with github := .fixed false, gitlab := .fixed false }
  | .github => { d with github := .fixed true, gitlab := .fixed false }
  | .gitlab => { d with github := .fixed false, gitlab := .fixed true }

/-- Puts a chosen theme in the place of the background probe. -/
def withTheme (d : Detectors) : ThemeChoice → Detectors
  | .auto => d
  | .light => { d with darkBackground := .fixed false }
  | .dark => { d with darkBackground := .fixed true }

def theme (d : Detectors) (s : Surroundings) : Theme := if d.isDark s then .dark else .light

end Detectors

/-- Whether output is colored: a refusal of color wins over every choice. -/
def ColorChoice.enabled (c : ColorChoice) (d : Detectors) (s : Surroundings) : Bool :=
  if d.refusesColor s then false
  else match c with
    | .always => true
    | .never => false
    | .auto => s.terminal

end StepLog
