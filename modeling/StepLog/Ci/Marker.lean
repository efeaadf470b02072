/-
  Markers of collapsible groups in CI logs.

  A marker opens or closes a group in the dialect of one provider. GitLab markers carry
  the Unix time at which they are written; each marker reads the clock for itself, so
  the time is an argument of `render`.
-/
import StepLog.Ci.Detectors

namespace StepLog

inductive Marker
  | githubOpen (name description : String)
  | githubClose
  /-- `header` is the line that a log viewer shows. -/
  | gitlabOpen (name header : String)
  | gitlabClose (name : String)
deriving DecidableEq

namespace Marker

/-- The markers around a group called `name`, if the environment has groups. -/
def pair? (environment : CiEnvironment) (name description : String) : Option (Marker × Marker) :=
  match environment with
  | .none => none
  | .gitHubActions => some (githubOpen name description, githubClose)
  | .gitLabCi =>
    some (gitlabOpen name (if description.isEmpty then name else description), gitlabClose name)

/-- The text of a marker that is written at Unix time `time`. -/
def render (time : Int) : Marker → String
  | githubOpen name description =>
    if description.isEmpty then "::group::" ++ name ++ "\n"
    else "::group::" ++ name ++ ": " ++ description ++ "\n"
  | githubClose => "::endgroup::\n"
  | gitlabOpen name header =>
    "\x1b[0Ksection_start:" ++ toString time ++ ":" ++ name ++ "[collapsed=true]\r\x1b[0K" ++ header
  | gitlabClose name => "\x1b[0Ksection_end:" ++ toString time ++ ":" ++ name ++ "\r\x1b[0K"

end Marker

end StepLog
