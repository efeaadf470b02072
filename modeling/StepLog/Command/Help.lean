/-
  Texts about the command line.
-/
import StepLog.Command.Usage

namespace StepLog.Command

def versionText : String := "runlog 0.3.0\n"

def helpText : String :=
  "Highlighted step output and CI log groups\n\n" ++
  "Usage: runlog [OPTIONS] script [-s SHELL] [-g GROUP] [-d DESCRIPTION] [FILE]\n" ++
  "       runlog [OPTIONS] with [-g GROUP] [-d DESCRIPTION] KEY=VALUE...\n\n" ++
  "Options:\n" ++
  "  -c, --config <CONFIG>  Configuration file\n" ++
  "  -l, --level <LEVEL>    Minimum severity to print\n" ++
  "      --color <COLOR>    When to color output\n" ++
  "      --theme <THEME>    Colors for a light or dark terminal background\n" ++
  "      --ci <CI>          Force CI group markup for a provider\n" ++
  "  -h, --help             Print help\n" ++
  "  -V, --version          Print version\n"

/-- What is said about a command line that cannot be run. -/
def UsageFault.message : UsageFault → String
  | asked .help => helpText
  | asked .version => versionText
  | nothingGiven => helpText
  | noCommand => "a subcommand is required"
  | noPairs => "at least one KEY=VALUE pair is required"
  | unknownCommand arg => "unrecognized subcommand '" ++ Text.decodeLossy arg ++ "'"
  | commandBehindDashes arg => "unexpected subcommand '" ++ Text.decodeLossy arg ++ "' behind '--'"
  | unknownSwitch arg => "unexpected option '" ++ Text.decodeLossy arg ++ "'"
  | surplus arg => "unexpected argument '" ++ Text.decodeLossy arg ++ "'"
  | flagWithValue f => "no value is allowed for '--" ++ f.name ++ "'"
  | repeated slot => "'" ++ slot.name ++ "' cannot be given more than once"
  | noValue slot => "a value is required for '" ++ slot.name ++ "'"
  | badValue slot value => "invalid value '" ++ Text.decodeLossy value ++ "' for '" ++ slot.name ++ "'"
  | notText slot => "the value for '" ++ slot.name ++ "' is not UTF-8"
  | badPair fault => fault.message

end StepLog.Command
