/-
  The program: it gathers what a run can see, runs, and writes what comes of it.
-/
import StepLog.Command.Help
import StepLog.Command.Run
import Std.Time.DateTime.Timestamp

namespace StepLog

open Command

def environmentVariable (name : String) : IO (Option Text.Bytes) := do
  return (← IO.getEnv name).map Text.encode

/-- What is found at a path. A file in the place of a directory hides what is behind it. -/
def found (path : Path) : IO FileState := do
  match Text.decode? path with
  | none => return .missing
  | some name =>
    match ← (IO.FS.readBinFile name).toBaseIO with
    | .ok bytes => return .contents bytes.toList
    | .error (.noFileOrDirectory ..) => return .missing
    | .error (.inappropriateType (some _) ..) => return .missing
    | .error _ => return .unreadable

/-- The files that an invocation may read, as they are now. -/
def snapshot (userDirectory : Option Path) (v : Invocation) : IO Files := do
  let script := match v.task with
    | .script _ file => (scriptFile? file).toList
    | .params _ => []
  let configs := v.config.elim (Config.candidates userDirectory) ([·])
  let states ← (configs ++ script).mapM fun path => return (path, ← found path)
  return fun path => (states.lookup path).getD .missing

def surroundings : IO Surroundings := do
  let environment := ⟨← environmentVariable "GITHUB_ACTIONS", ← environmentVariable "GITLAB_CI",
    ← environmentVariable "NO_COLOR", ← environmentVariable "COLORFGBG"⟩
  return ⟨environment, ← (← IO.getStdout).isTty, ⟨false, false, false, true⟩⟩

/-- Standard input, where a script is read from it. -/
def standardInput (v : Invocation) : IO Text.Bytes := do
  match v.task with
  | .script _ file =>
    if (scriptFile? file).isSome then return []
    else return (← (← IO.getStdin).readBinToEnd).toList
  | .params _ => return []

/-- Writes to standard output. Each marker reads the clock for itself. -/
def write (payloads : List Payload) : IO Unit := do
  let out ← IO.getStdout
  for payload in payloads do
    let now ← Std.Time.Timestamp.now
    out.putStr (payload.render now.toSecondsSinceUnixEpoch.val)
    out.flush

def runInvocation (v : Invocation) : IO UInt32 := do
  let userDirectory := Config.userDirectory? (← environmentVariable "XDG_CONFIG_HOME")
    (← environmentVariable "HOME")
  let report := v.run ⟨← snapshot userDirectory v, userDirectory, ← standardInput v, ← surroundings⟩
  write report.output
  match report.fault? with
  | none => return 0
  | some fault =>
    IO.eprintln ("Error: " ++ fault.message)
    return 1

end StepLog

def main (args : List String) : IO UInt32 := do
  let level ← StepLog.environmentVariable "RUNLOG_LEVEL"
  match StepLog.Command.Invocation.read level (args.map StepLog.Text.encode) with
  | .ok v => StepLog.runInvocation v
  | .error (.asked flag) =>
    IO.print (StepLog.Command.UsageFault.asked flag).message
    return 0
  | .error .nothingGiven =>
    IO.eprint StepLog.Command.helpText
    return 2
  | .error fault =>
    IO.eprintln ("error: " ++ fault.message)
    return 2
