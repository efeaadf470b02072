/-
  Painting tokens with terminal escape sequences.

  Styling never spans a line feed: every stretch of a token between line feeds is
  wrapped and reset by itself, so viewers that work line by line keep the colors.
-/
import StepLog.Style.Palette
import StepLog.Text.Lines

namespace StepLog.Style

/-- The sequence that sets the foreground to color `n`. -/
def setForeground (n : Nat) : String := "\x1b[38;5;" ++ toString n ++ "m"

def reset : String := "\x1b[0m"

/-- A stretch of text in one color; an empty one needs no sequences. -/
def paintStretch (color : Nat) (stretch : List Char) : String :=
  if stretch.isEmpty then "" else setForeground color ++ String.ofList stretch ++ reset

/-- A text in one color, each line by itself. -/
def paintText (color : Nat) (text : String) : String :=
  "\n".intercalate ((Text.splitAt '\n' text.toList).map (paintStretch color))

def paintToken (palette : Palette) (theme : Theme) (t : Token) : String :=
  match palette.color t.kind theme with
  | none => t.text
  | some color => paintText color t.text

def paint (palette : Palette) (theme : Theme) (tokens : List Token) : String :=
  String.join (tokens.map (paintToken palette theme))

/-- The four letters of a severity, in color or not. -/
def severityLabel (s : Severity) (theme : Theme) (color : Bool) : String :=
  if color then paintStretch (theme.severityColor s) s.label.toList else s.label

end StepLog.Style
