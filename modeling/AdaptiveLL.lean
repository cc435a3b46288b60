import AdaptiveLL.AltSet
import AdaptiveLL.Cache.Basic
import AdaptiveLL.Cache.Table
import AdaptiveLL.CharStream
import AdaptiveLL.Command.Basic
import AdaptiveLL.Command.Rehearsal
import AdaptiveLL.Command.Routine
import AdaptiveLL.Config.Basic
import AdaptiveLL.Config.Conflict
import AdaptiveLL.Config.Set
import AdaptiveLL.Grammar.Compile
import AdaptiveLL.Grammar.Element
import AdaptiveLL.Guard
import AdaptiveLL.Host
import AdaptiveLL.Journal.Basic
import AdaptiveLL.Journal.Code
import AdaptiveLL.Journal.Event
import AdaptiveLL.Json.Decode
import AdaptiveLL.Json.Reader
import AdaptiveLL.Json.Value
import AdaptiveLL.Json.Writer
import AdaptiveLL.Lexing.Closure
import AdaptiveLL.Lexing.Error
import AdaptiveLL.Lexing.Lexer
import AdaptiveLL.Lexing.Scan
import AdaptiveLL.Limits
import AdaptiveLL.Network.Basic
import AdaptiveLL.Network.Check
import AdaptiveLL.Network.Document
import AdaptiveLL.Network.Error
import AdaptiveLL.Network.Lookahead
import AdaptiveLL.Notation.Config
import AdaptiveLL.Notation.Error
import AdaptiveLL.Notation.Grammar
import AdaptiveLL.Notation.Guard
import AdaptiveLL.Notation.Symbol
import AdaptiveLL.Parsing.Error
import AdaptiveLL.Parsing.Trace
import AdaptiveLL.Parsing.Walk
import AdaptiveLL.Prediction.Choices
import AdaptiveLL.Prediction.Closure
import AdaptiveLL.Prediction.Error
import AdaptiveLL.Prediction.Mode
import AdaptiveLL.Prediction.Predict
import AdaptiveLL.Prediction.Reach
import AdaptiveLL.Prediction.Report
import AdaptiveLL.Prediction.Session
import AdaptiveLL.Prediction.Stats
import AdaptiveLL.Probe
import AdaptiveLL.Proofs.Cache.Calls
import AdaptiveLL.Proofs.Command.Routines
import AdaptiveLL.Proofs.Config.Alternatives
import AdaptiveLL.Proofs.Config.Filling
import AdaptiveLL.Proofs.Config.Insertion
import AdaptiveLL.Proofs.Config.Observed
import AdaptiveLL.Proofs.Ensures
import AdaptiveLL.Proofs.Grammar.Bounds
import AdaptiveLL.Proofs.Grammar.Compiled
import AdaptiveLL.Proofs.Grammar.Decisions
import AdaptiveLL.Proofs.Grammar.Delimited
import AdaptiveLL.Proofs.Grammar.Drafts
import AdaptiveLL.Proofs.Grammar.Elements
import AdaptiveLL.Proofs.Grammar.Finished
import AdaptiveLL.Proofs.Grammar.Laid
import AdaptiveLL.Proofs.Grammar.Language
import AdaptiveLL.Proofs.Grammar.Lexers
import AdaptiveLL.Proofs.Grammar.Lookahead
import AdaptiveLL.Proofs.Grammar.Pieces
import AdaptiveLL.Proofs.Grammar.Progress
import AdaptiveLL.Proofs.Grammar.Reading
import AdaptiveLL.Proofs.Grammar.Refusals
import AdaptiveLL.Proofs.Grammar.Shape
import AdaptiveLL.Proofs.Grammar.Success
import AdaptiveLL.Proofs.Grammar.Walks
import AdaptiveLL.Proofs.Guard
import AdaptiveLL.Proofs.Guard.Normal
import AdaptiveLL.Proofs.InStep
import AdaptiveLL.Proofs.Json.Decoding
import AdaptiveLL.Proofs.Json.Reading
import AdaptiveLL.Proofs.Lexing.Calls
import AdaptiveLL.Proofs.Lexing.Ceilings
import AdaptiveLL.Proofs.Lexing.Delimited
import AdaptiveLL.Proofs.Lexing.Following
import AdaptiveLL.Proofs.Lexing.Lengths
import AdaptiveLL.Proofs.Lexing.Longest
import AdaptiveLL.Proofs.Lexing.Matches
import AdaptiveLL.Proofs.Lexing.Modes
import AdaptiveLL.Proofs.Lexing.Places
import AdaptiveLL.Proofs.Lexing.Plain
import AdaptiveLL.Proofs.Lexing.Questions
import AdaptiveLL.Proofs.Lexing.Scanning
import AdaptiveLL.Proofs.Lexing.Transparency
import AdaptiveLL.Proofs.Lexing.Words
import AdaptiveLL.Proofs.Lookups.Caches
import AdaptiveLL.Proofs.Lookups.Chases
import AdaptiveLL.Proofs.Lookups.Closure
import AdaptiveLL.Proofs.Lookups.Lookahead
import AdaptiveLL.Proofs.Lookups.Parses
import AdaptiveLL.Proofs.Lookups.Predictions
import AdaptiveLL.Proofs.Lookups.Rows
import AdaptiveLL.Proofs.Lookups.Safety
import AdaptiveLL.Proofs.Lookups.Scans
import AdaptiveLL.Proofs.Lookups.Sets
import AdaptiveLL.Proofs.Lookups.Stacks
import AdaptiveLL.Proofs.Lookups.Strict
import AdaptiveLL.Proofs.Network.Lookahead
import AdaptiveLL.Proofs.Network.Orderly
import AdaptiveLL.Proofs.Network.Passing
import AdaptiveLL.Proofs.Network.Saved
import AdaptiveLL.Proofs.Network.Vocabulary
import AdaptiveLL.Proofs.Network.Walks
import AdaptiveLL.Proofs.Parsing.Acceptance
import AdaptiveLL.Proofs.Parsing.Agreement
import AdaptiveLL.Proofs.Parsing.Choices
import AdaptiveLL.Proofs.Parsing.Derivation
import AdaptiveLL.Proofs.Parsing.Ending
import AdaptiveLL.Proofs.Parsing.Expected
import AdaptiveLL.Proofs.Parsing.Moves
import AdaptiveLL.Proofs.Prediction.Abreast
import AdaptiveLL.Proofs.Prediction.Agreement
import AdaptiveLL.Proofs.Prediction.Alike
import AdaptiveLL.Proofs.Prediction.Accounts
import AdaptiveLL.Proofs.Prediction.Ambiguities
import AdaptiveLL.Proofs.Prediction.Attempts
import AdaptiveLL.Proofs.Prediction.Bare
import AdaptiveLL.Proofs.Prediction.Ceilings
import AdaptiveLL.Proofs.Prediction.Covering
import AdaptiveLL.Proofs.Prediction.Determined
import AdaptiveLL.Proofs.Prediction.Exact
import AdaptiveLL.Proofs.Prediction.Fair
import AdaptiveLL.Proofs.Prediction.Fuel
import AdaptiveLL.Proofs.Prediction.Guarded
import AdaptiveLL.Proofs.Prediction.Least
import AdaptiveLL.Proofs.Prediction.Local
import AdaptiveLL.Proofs.Prediction.Modes
import AdaptiveLL.Proofs.Prediction.Opening
import AdaptiveLL.Proofs.Prediction.Rounds
import AdaptiveLL.Proofs.Prediction.Sessions
import AdaptiveLL.Proofs.Prediction.Statistics
import AdaptiveLL.Proofs.Prediction.Transparency
import AdaptiveLL.Proofs.Prediction.Twins
import AdaptiveLL.Proofs.Prediction.Used
import AdaptiveLL.Proofs.Prediction.Verdict
import AdaptiveLL.Proofs.Run
import AdaptiveLL.Proofs.Stacks.Ceilings
import AdaptiveLL.Proofs.Stacks.Growth
import AdaptiveLL.Proofs.Stacks.Merge
import AdaptiveLL.Proofs.SymbolSet
import AdaptiveLL.Proofs.SymbolSet.Recipes
import AdaptiveLL.Proofs.Token.Ahead
import AdaptiveLL.Proofs.Token.Looking
import AdaptiveLL.Proofs.Widths
import AdaptiveLL.Run
import AdaptiveLL.Settings.Basic
import AdaptiveLL.Settings.Document
import AdaptiveLL.Settings.Environment
import AdaptiveLL.Settings.Profile
import AdaptiveLL.StackGraph
import AdaptiveLL.Symbol
import AdaptiveLL.SymbolSet
import AdaptiveLL.Text
import AdaptiveLL.Token.Basic
import AdaptiveLL.Token.Stream
import AdaptiveLL.Toml.Reader
import AdaptiveLL.Toml.Scalar
import AdaptiveLL.Toml.Table
