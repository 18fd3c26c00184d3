import GrammarAnalysis.Analysis.Basic
import GrammarAnalysis.Analysis.Report
import GrammarAnalysis.Analysis.Words
import GrammarAnalysis.Automaton.Determinization
import GrammarAnalysis.Automaton.Dfa
import GrammarAnalysis.Automaton.Nfa
import GrammarAnalysis.Automaton.Path
import GrammarAnalysis.Automaton.StateGraph
import GrammarAnalysis.Collections.NatSet
import GrammarAnalysis.Collections.OrderedMap
import GrammarAnalysis.Collections.Total
import GrammarAnalysis.CommandLine.Options
import GrammarAnalysis.CommandLine.Program
import GrammarAnalysis.CommandLine.Session
import GrammarAnalysis.Derivation.Basic
import GrammarAnalysis.Derivation.Relation
import GrammarAnalysis.Derivation.Run
import GrammarAnalysis.Derivation.Tree
import GrammarAnalysis.Derivation.TreeRules
import GrammarAnalysis.Dot
import GrammarAnalysis.Files.Error
import GrammarAnalysis.Files.Path
import GrammarAnalysis.Files.Tree
import GrammarAnalysis.Grammar.Augmented
import GrammarAnalysis.Grammar.Basic
import GrammarAnalysis.Grammar.Definition
import GrammarAnalysis.Grammar.Error
import GrammarAnalysis.Grammar.Printer
import GrammarAnalysis.Grammar.Reader
import GrammarAnalysis.Grammar.WellFormed
import GrammarAnalysis.Item.Basic
import GrammarAnalysis.Item.Closure
import GrammarAnalysis.Item.Printer
import GrammarAnalysis.Item.Set
import GrammarAnalysis.Item.Validity
import GrammarAnalysis.Iteration.Exploration
import GrammarAnalysis.Iteration.Fixpoint
import GrammarAnalysis.Lookahead.First
import GrammarAnalysis.Lookahead.Follow
import GrammarAnalysis.Lookahead.Nullable
import GrammarAnalysis.Lookahead.TerminalSet
import GrammarAnalysis.Main
import GrammarAnalysis.Normal.CommonPrefix
import GrammarAnalysis.Normal.Epsilon
import GrammarAnalysis.Normal.LeftRecursion
import GrammarAnalysis.Normal.Pipeline
import GrammarAnalysis.Normal.Unit
import GrammarAnalysis.Normal.Useless
import GrammarAnalysis.Predictive.Parser
import GrammarAnalysis.Predictive.Printer
import GrammarAnalysis.Predictive.Table
import GrammarAnalysis.Proofs.Automaton.Building
import GrammarAnalysis.Proofs.Automaton.Determinization
import GrammarAnalysis.Proofs.Automaton.Paths
import GrammarAnalysis.Proofs.Automaton.Recognition
import GrammarAnalysis.Proofs.Automaton.Subsets
import GrammarAnalysis.Proofs.Automaton.Transitions
import GrammarAnalysis.Proofs.Collections.Maps
import GrammarAnalysis.Proofs.Collections.Sets
import GrammarAnalysis.Proofs.Derivation.Completion
import GrammarAnalysis.Proofs.Derivation.Forests
import GrammarAnalysis.Proofs.Derivation.Languages
import GrammarAnalysis.Proofs.Derivation.Runs
import GrammarAnalysis.Proofs.Grammar.Augmentation
import GrammarAnalysis.Proofs.Grammar.Plain
import GrammarAnalysis.Proofs.Grammar.Rebuild
import GrammarAnalysis.Proofs.Item.Closure
import GrammarAnalysis.Proofs.Item.Passes
import GrammarAnalysis.Proofs.Item.Sets
import GrammarAnalysis.Proofs.Item.Traces
import GrammarAnalysis.Proofs.Iteration.Exploration
import GrammarAnalysis.Proofs.Iteration.Growth
import GrammarAnalysis.Proofs.Iteration.Stages
import GrammarAnalysis.Proofs.Lookahead.First
import GrammarAnalysis.Proofs.Lookahead.Follow
import GrammarAnalysis.Proofs.Lookahead.Nullable
import GrammarAnalysis.Proofs.Lookahead.Ranks
import GrammarAnalysis.Proofs.Lookahead.Starts
import GrammarAnalysis.Proofs.Normal.CommonPrefix
import GrammarAnalysis.Proofs.Normal.Epsilon
import GrammarAnalysis.Proofs.Normal.LeftRecursion
import GrammarAnalysis.Proofs.Normal.Pipeline
import GrammarAnalysis.Proofs.Normal.Unit
import GrammarAnalysis.Proofs.Normal.Useless
import GrammarAnalysis.Proofs.Predictive.Conflict
import GrammarAnalysis.Proofs.Predictive.Correctness
import GrammarAnalysis.Proofs.Predictive.Halting
import GrammarAnalysis.Proofs.Predictive.LeftCorners
import GrammarAnalysis.Proofs.Predictive.Reading
import GrammarAnalysis.Proofs.Predictive.Table
import GrammarAnalysis.Proofs.Prefixes
import GrammarAnalysis.Proofs.Regex.Discovery
import GrammarAnalysis.Proofs.Regex.Elimination
import GrammarAnalysis.Proofs.Regex.Matching
import GrammarAnalysis.Proofs.Regex.Simplification
import GrammarAnalysis.Proofs.Regex.Synthesis
import GrammarAnalysis.Proofs.Regex.Walks
import GrammarAnalysis.Proofs.Regular.Automaton
import GrammarAnalysis.Proofs.ShiftReduce.Automaton
import GrammarAnalysis.Proofs.ShiftReduce.Canonical
import GrammarAnalysis.Proofs.ShiftReduce.Continuation
import GrammarAnalysis.Proofs.ShiftReduce.Correctness
import GrammarAnalysis.Proofs.ShiftReduce.Decision
import GrammarAnalysis.Proofs.ShiftReduce.Halting
import GrammarAnalysis.Proofs.ShiftReduce.Hierarchy
import GrammarAnalysis.Proofs.ShiftReduce.ItemAutomaton
import GrammarAnalysis.Proofs.ShiftReduce.Merged
import GrammarAnalysis.Proofs.ShiftReduce.Predictive
import GrammarAnalysis.Proofs.ShiftReduce.Reading
import GrammarAnalysis.Proofs.ShiftReduce.Soundness
import GrammarAnalysis.Proofs.ShiftReduce.StepBound
import GrammarAnalysis.Proofs.ShiftReduce.Table
import GrammarAnalysis.Proofs.ShiftReduce.ValidItems
import GrammarAnalysis.Proofs.ShiftReduce.Generation
import GrammarAnalysis.Proofs.ShiftReduce.Progress
import GrammarAnalysis.Proofs.Table.Cells
import GrammarAnalysis.Proofs.Table.Filling
import GrammarAnalysis.Proofs.Table.Registration
import GrammarAnalysis.Regex.Automaton
import GrammarAnalysis.Regex.Basic
import GrammarAnalysis.Regex.Elimination
import GrammarAnalysis.Regex.Language
import GrammarAnalysis.Regex.Printer
import GrammarAnalysis.Regular.Automaton
import GrammarAnalysis.ShiftReduce.Canonical
import GrammarAnalysis.ShiftReduce.ItemAutomaton
import GrammarAnalysis.ShiftReduce.Merged
import GrammarAnalysis.ShiftReduce.Parser
import GrammarAnalysis.ShiftReduce.Printer
import GrammarAnalysis.ShiftReduce.State
import GrammarAnalysis.ShiftReduce.Table
import GrammarAnalysis.Symbol
import GrammarAnalysis.Table.Slot
import GrammarAnalysis.Text.Blank
import GrammarAnalysis.Text.Split
import GrammarAnalysis.Proofs.ShiftReduce.Conflicts
import GrammarAnalysis.Proofs.ShiftReduce.Filling
import GrammarAnalysis.Proofs.ShiftReduce.Renumbering
import GrammarAnalysis.Proofs.Analysis.Words
import GrammarAnalysis.Proofs.Analysis.Verdicts
import GrammarAnalysis.Proofs.Grammar.Listing
import GrammarAnalysis.Proofs.Grammar.Printing
import GrammarAnalysis.Proofs.Text.Split
import GrammarAnalysis.Proofs.Grammar.RoundTrip
import GrammarAnalysis.Proofs.Iteration.Settling
import GrammarAnalysis.Proofs.Lookahead.Passes
import GrammarAnalysis.Proofs.Lookahead.Exactness
import GrammarAnalysis.Proofs.Normal.Edits
import GrammarAnalysis.Proofs.Normal.Passes
import GrammarAnalysis.Proofs.Normal.InPlace
import GrammarAnalysis.Proofs.ShiftReduce.KnownRules
import GrammarAnalysis.Proofs.ShiftReduce.Reserved
import GrammarAnalysis.Proofs.Normal.Factored
import GrammarAnalysis.Proofs.Normal.Guarantees
import GrammarAnalysis.Proofs.Automaton.Edges
import GrammarAnalysis.Proofs.Automaton.SubsetGraph
import GrammarAnalysis.Proofs.Derivation.Linearization
import GrammarAnalysis.Proofs.Grammar.Lines
import GrammarAnalysis.Proofs.Grammar.Acceptance
import GrammarAnalysis.Proofs.Grammar.Rejection
import GrammarAnalysis.Proofs.Grammar.Operations
import GrammarAnalysis.Proofs.Grammar.Building
import GrammarAnalysis.Proofs.Automaton.Assembly
import GrammarAnalysis.Proofs.Regex.Printing
import GrammarAnalysis.Proofs.Dot
import GrammarAnalysis.Proofs.Analysis.Tokens
import GrammarAnalysis.Proofs.Item.Rounds
import GrammarAnalysis.Proofs.Item.LeastClosure
import GrammarAnalysis.Proofs.Regex.Removal
import GrammarAnalysis.Proofs.Regex.Constructors
import GrammarAnalysis.Proofs.Normal.Nullability
