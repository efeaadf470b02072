import StepLog.Files.Tree
import StepLog.Main
import StepLog.Sink.Buffer
import StepLog.Proofs.Session.Act
import StepLog.Proofs.Session.Groups
import StepLog.Proofs.Cutting
import StepLog.Proofs.Shell.Lossless
import StepLog.Proofs.Yaml.Line
import StepLog.Proofs.Yaml.Blocks
import StepLog.Proofs.Yaml.Lossless
import StepLog.Proofs.Style.Erase
import StepLog.Proofs.Params.Texts
import StepLog.Proofs.Session.Recorded
import StepLog.Proofs.Session.Color
import StepLog.Proofs.Params.ReadBack
import StepLog.Proofs.Yaml.LiteralBlocks
import StepLog.Proofs.Params.LineStarts
import StepLog.Proofs.Session.Commands
import StepLog.Proofs.Session.Refusals
import StepLog.Proofs.Session.Book
import StepLog.Proofs.Shell.Steps
import StepLog.Proofs.Shell.Separators
import StepLog.Proofs.Printer.Calls
import StepLog.Proofs.Session.Unrefused
import StepLog.Proofs.Session.Transparency
import StepLog.Proofs.Session.AnySink
import StepLog.Proofs.Session.PastGate
import StepLog.Proofs.Session.Levels
import StepLog.Proofs.Params.Entries
import StepLog.Proofs.Shell.Commands
import StepLog.Proofs.Command.Output
import StepLog.Proofs.Command.Configuration
import StepLog.Proofs.Yaml.Keys
import StepLog.Proofs.Yaml.Margins
import StepLog.Proofs.Yaml.Parts
import StepLog.Proofs.Params.EntryLines
import StepLog.Proofs.Params.Keys
import StepLog.Proofs.Style.Terminal
import StepLog.Proofs.Shell.Keywords
import StepLog.Proofs.Shell.Extents
import StepLog.Proofs.Text.Offsets
import StepLog.Proofs.Shell.Bytewise
import StepLog.Proofs.Yaml.Bytewise
import StepLog.Proofs.Printer.Scripts
import StepLog.Proofs.Yaml.Literals
import StepLog.Proofs.Yaml.ListItems
import StepLog.Proofs.Yaml.QuotedKeys
import StepLog.Proofs.Params.KeyTexts
import StepLog.Proofs.Params.Warnings
import StepLog.Proofs.Session.Colorless
import StepLog.Proofs.Printer.Inquiries
import StepLog.Proofs.Session.Detections
import StepLog.Proofs.Ci.Overrides
import StepLog.Proofs.Sink.Buffer
import StepLog.Proofs.Command.Pairs
import StepLog.Proofs.Config.Sections
import StepLog.Proofs.Json.Sections
import StepLog.Proofs.Toml.Sections
import StepLog.Proofs.Yaml.Lexemes
import StepLog.Proofs.Yaml.Sections
import StepLog.Proofs.Files.Tree
import StepLog.Proofs.Config.RoundTrip
import StepLog.Proofs.Shell.Parameters
import StepLog.Proofs.Ci.Background
