import Justfile.Command.Files
import Justfile.Command.Options
import Justfile.Command.Run
import Justfile.Compile
import Justfile.Datum
import Justfile.Decimal.Binary
import Justfile.Decimal.Text
import Justfile.Digest
import Justfile.Failure
import Justfile.Json
import Justfile.Json.Reader
import Justfile.Main
import Justfile.Parsing.Continuation
import Justfile.Parsing.Expression
import Justfile.Parsing.File
import Justfile.Parsing.Lexeme
import Justfile.Parsing.Parse
import Justfile.Parsing.Parser
import Justfile.Parsing.Trace
import Justfile.Program.Basic
import Justfile.Program.Helper
import Justfile.Program.Platform
import Justfile.Program.Settings
import Justfile.Program.Targets
import Justfile.Script.Basic
import Justfile.Script.Entry
import Justfile.Script.Fixed
import Justfile.Script.Function
import Justfile.Script.Label
import Justfile.Script.Listing
import Justfile.Script.OfProgram
import Justfile.Shell.Builtin
import Justfile.Shell.Evaluate
import Justfile.Shell.Function
import Justfile.Shell.Names
import Justfile.Shell.Word
import Justfile.Survey.Bench
import Justfile.Survey.Coverage
import Justfile.Survey.Fingerprint
import Justfile.Survey.HotSpots
import Justfile.Survey.Profile
import Justfile.Survey.Round
import Justfile.Survey.Sample
import Justfile.Survey.SelfCheck
import Justfile.Survey.Value
import Justfile.Survey.Verdict
import Justfile.Survey.Workload
import Justfile.Table
import Justfile.Text.Align
import Justfile.Text.Blank
import Justfile.Text.Box
import Justfile.Text.Hex
import Justfile.Text.Indent
import Justfile.Text.Lines
import Justfile.Text.Printable
import Justfile.Text.Quoted
import Justfile.Tree.Expr
import Justfile.Tree.Item
import Justfile.Tree.Reading
import Justfile.Tree.Recipe
import Justfile.Tree.Source
import Justfile.Proofs.Naming
import Justfile.Proofs.Stages
import Justfile.Proofs.Session
import Justfile.Proofs.ShellReader
import Justfile.Proofs.Shape
import Justfile.Proofs.Meaning
import Justfile.Proofs.Coverage
import Justfile.Proofs.Reads
import Justfile.Proofs.Legible
import Justfile.Proofs.Prepare
import Justfile.Proofs.LineEnds
import Justfile.Proofs.BodyLines
import Justfile.Proofs.Recovers
import Justfile.Proofs.RoundTrip
import Justfile.Proofs.Headings
import Justfile.Proofs.BodyText
import Justfile.Proofs.Canonical
import Justfile.Proofs.Refusals
import Justfile.Proofs.Termination
import Justfile.Proofs.Linking
import Justfile.Proofs.Clashes
import Justfile.Proofs.Definitions
import Justfile.Proofs.Order
import Justfile.Proofs.Overrides
import Justfile.Proofs.Repeatable
import Justfile.Proofs.Listening
import Justfile.Proofs.Effects
import Justfile.Proofs.Comments
import Justfile.Proofs.Flags
import Justfile.Proofs.Arguments
import Justfile.Proofs.Continuations
import Justfile.Proofs.Interpolations
import Justfile.Proofs.BodyFiles
import Justfile.Proofs.Gaps
import Justfile.Proofs.GapLexemes
import Justfile.Proofs.GapGrammar
import Justfile.Proofs.Trails
import Justfile.Proofs.BlankLines
import Justfile.Proofs.Keywords
import Justfile.Proofs.Positional
import Justfile.Proofs.Layout
import Justfile.Proofs.Marks
import Justfile.Proofs.Linkage
import Justfile.Proofs.Intakes
import Justfile.Proofs.Parameters
import Justfile.Proofs.Calls
import Justfile.Proofs.Splitting
import Justfile.Proofs.Arity
import Justfile.Proofs.Delegation
import Justfile.Proofs.Reaching
import Justfile.Proofs.TargetLists
import Justfile.Proofs.Checks
import Justfile.Proofs.Unambiguous
import Justfile.Proofs.Unquoting
import Justfile.Proofs.SettingWords
import Justfile.Proofs.NameSearch
import Justfile.Proofs.TextLines
import Justfile.Proofs.Indentation
import Justfile.Proofs.ListEntries
import Justfile.Proofs.Boxes
