import PatternAutomata.Ascending
import PatternAutomata.Automaton
import PatternAutomata.BuildError
import PatternAutomata.CommandLine.Files
import PatternAutomata.CommandLine.Grammar
import PatternAutomata.CommandLine.Outcome
import PatternAutomata.CommandLine.Request
import PatternAutomata.Compiled
import PatternAutomata.Decimal.Binary64
import PatternAutomata.Decimal.Shortest
import PatternAutomata.Dfa.Basic
import PatternAutomata.Dfa.Subsets
import PatternAutomata.Dfa.Table
import PatternAutomata.Diagnostic.Basic
import PatternAutomata.Diagnostic.Canvas
import PatternAutomata.Diagnostic.Place
import PatternAutomata.Diagnostic.Snippet
import PatternAutomata.Fault
import PatternAutomata.Journal
import PatternAutomata.Json.Number
import PatternAutomata.Json.ReadError
import PatternAutomata.Json.Reading
import PatternAutomata.Json.Strings
import PatternAutomata.Json.Value
import PatternAutomata.Listing.Basic
import PatternAutomata.Listing.Stats
import PatternAutomata.Listing.Written
import PatternAutomata.Nfa.Arena
import PatternAutomata.Nfa.Basic
import PatternAutomata.Nfa.Closure
import PatternAutomata.Nfa.Fragment
import PatternAutomata.Palette
import PatternAutomata.Pattern.Check
import PatternAutomata.Pattern.Concatenation
import PatternAutomata.Pattern.Postfix
import PatternAutomata.Pattern.Token
import PatternAutomata.Run.Simulation
import PatternAutomata.Run.Suite
import PatternAutomata.Run.Trace
import PatternAutomata.Run.Tracer
import PatternAutomata.Run.Verdict
import PatternAutomata.Snapshot.Basic
import PatternAutomata.Snapshot.Decoding
import PatternAutomata.Snapshot.Written
import PatternAutomata.StateSet
import PatternAutomata.Symbol
import PatternAutomata.Text.Blank
import PatternAutomata.Text.CodePoints
import PatternAutomata.Text.GraphemeExtend
import PatternAutomata.Text.Lines
import PatternAutomata.Text.Quoted
import PatternAutomata.Text.Unprintable
import PatternAutomata.Text.Width
import PatternAutomata.Main
import PatternAutomata.Proofs.Nfa.Closure
import PatternAutomata.Proofs.Nfa.Runs
import PatternAutomata.Proofs.Nfa.Fragments
import PatternAutomata.Proofs.Nfa.Sealing
import PatternAutomata.Proofs.Dfa.Tables
import PatternAutomata.Proofs.Dfa.Exploration
import PatternAutomata.Proofs.Dfa.Determinization
import PatternAutomata.Proofs.Dfa.Lockstep
import PatternAutomata.Proofs.Dfa.SubsetAutomaton
import PatternAutomata.Proofs.Dfa.Subsequences
import PatternAutomata.Proofs.Dfa.Renaming
import PatternAutomata.Proofs.Pattern.Checking
import PatternAutomata.Proofs.Compilation
import PatternAutomata.Proofs.Json.Readers
import PatternAutomata.Proofs.Listing.Walk
import PatternAutomata.Proofs.Snapshot.RoundTrip
import PatternAutomata.Proofs.Snapshot.Restoring
import PatternAutomata.Proofs.Nfa.Assembling
import PatternAutomata.Proofs.Snapshot.Rebuilding
import PatternAutomata.Proofs.Listing.Labels
import PatternAutomata.Proofs.Listing.Counting
import PatternAutomata.Proofs.Run.Tables
import PatternAutomata.Proofs.Run.Verdicts
import PatternAutomata.Proofs.Faultless
import PatternAutomata.Proofs.Listing.Language
import PatternAutomata.Proofs.Listing.Renaming
import PatternAutomata.Proofs.Snapshot.Reading
import PatternAutomata.Proofs.CommandLine.Agreement
import PatternAutomata.Proofs.Pattern.Postorder
import PatternAutomata.Proofs.Nfa.Records
import PatternAutomata.Proofs.Nfa.Shape
import PatternAutomata.Proofs.Listing.Totals
import PatternAutomata.Proofs.Pattern.Origins
import PatternAutomata.Proofs.Pattern.Parenthesised
import PatternAutomata.Proofs.Pattern.Points
import PatternAutomata.Proofs.Pattern.Matching
import PatternAutomata.Proofs.Pattern.Reports
import PatternAutomata.Proofs.Pattern.StandIns
import PatternAutomata.Proofs.Run.Tracing
import PatternAutomata.Proofs.Snapshot.Transcripts
import PatternAutomata.Proofs.Diagnostic.Clamping
import PatternAutomata.Proofs.Dfa.Histories
import PatternAutomata.Proofs.Dfa.OwnStates
import PatternAutomata.Proofs.Nfa.Histories
import PatternAutomata.Proofs.Json.Grammar
import PatternAutomata.Proofs.Json.Skipping
import PatternAutomata.Proofs.Json.Consuming
import PatternAutomata.Proofs.Snapshot.Presentation
import PatternAutomata.Proofs.Run.Inputs
import PatternAutomata.Proofs.Diagnostic.PlainReports
import PatternAutomata.Proofs.Palettes
import PatternAutomata.Proofs.Delimiting
import PatternAutomata.Proofs.Json.Unambiguous
import PatternAutomata.Proofs.Listing.Spanning
import PatternAutomata.Proofs.Listing.Formats
import PatternAutomata.Proofs.Nfa.Reachability
import PatternAutomata.Proofs.Pattern.OperatorStack
