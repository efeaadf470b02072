/-
  Colors.

  A palette gives a token kind one of six foregrounds, a theme gives each foreground
  its index among the 256 terminal colors. Blank space has no color.
-/
import StepLog.Severity
import StepLog.Token

namespace StepLog

/-- The background that colors are picked for. -/
inductive Theme
  | light
  | dark
deriving DecidableEq

inductive Foreground
  | command | text | key | delimiter | literal | comment
deriving DecidableEq

/-- Index of a foreground among the 256 terminal colors. -/
def Theme.foreground : Theme → Foreground → Nat
  | .dark, .command => 150
  | .dark, .text => 189
  | .dark, .key => 141
  | .dark, .delimiter => 110
  | .dark, .literal => 240
  | .dark, .comment => 243
  | .light, .command => 64
  | .light, .text => 60
  | .light, .key => 98
  | .light, .delimiter => 31
  | .light, .literal => 247
  | .light, .comment => 245

/-- Index of the color of a severity label. -/
def Theme.severityColor : Theme → Severity → Nat
  | .dark, .debug => 111
  | .dark, .info => 117
  | .dark, .warn => 179
  | .dark, .error => 210
  | .dark, .fatal => 183
  | .light, .debug => 32
  | .light, .info => 31
  | .light, .warn => 94
  | .light, .error => 197
  | .light, .fatal => 98

/-- How token kinds are told apart. -/
inductive Palette
  /-- Two tones: commands and keywords stand out. -/
  | shell
  | keyValue
deriving DecidableEq

/-- The foreground of a token kind that is not blank space. -/
def Palette.foreground : Palette → TokenKind → Foreground
  | .shell, .command => .command
  | .shell, .keyword => .command
  | .shell, _ => .text
  | .keyValue, .key => .key
  | .keyValue, .delimiter => .delimiter
  | .keyValue, .literal => .literal
  | .keyValue, .comment => .comment
  | .keyValue, _ => .text

/-- The color index of a token kind; blank space has none. -/
def Palette.color (p : Palette) (kind : TokenKind) (theme : Theme) : Option Nat :=
  if kind = .whitespace then none else some (theme.foreground (p.foreground kind))

end StepLog
