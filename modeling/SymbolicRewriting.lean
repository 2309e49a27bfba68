import SymbolicRewriting.Symbol
import SymbolicRewriting.Vocabulary
import SymbolicRewriting.Decimal
import SymbolicRewriting.Error
import SymbolicRewriting.Metrics
import SymbolicRewriting.Term.Basic
import SymbolicRewriting.Term.Equality
import SymbolicRewriting.Term.Traversal
import SymbolicRewriting.Term.Fingerprint
import SymbolicRewriting.Term.Format
import SymbolicRewriting.Substitution.Basic
import SymbolicRewriting.Substitution.Apply
import SymbolicRewriting.PathCondition
import SymbolicRewriting.Oracle.Basic
import SymbolicRewriting.Oracle.Silent
import SymbolicRewriting.Oracle.Syntactic
import SymbolicRewriting.Oracle.Table
import SymbolicRewriting.Hook
import SymbolicRewriting.Builtin
import SymbolicRewriting.Definition.Subsort
import SymbolicRewriting.Definition.Signature
import SymbolicRewriting.Definition.Rule
import SymbolicRewriting.Definition.RuleIndex
import SymbolicRewriting.Definition.Basic
import SymbolicRewriting.Matching.Branch
import SymbolicRewriting.Matching.Pattern
import SymbolicRewriting.Machine.State
import SymbolicRewriting.Machine.Evaluation
import SymbolicRewriting.Machine.RuleMatch
import SymbolicRewriting.Machine.Step
import SymbolicRewriting.Machine.Execution
import SymbolicRewriting.Machine.Symbolic
import SymbolicRewriting.Total
import SymbolicRewriting.Queue
import SymbolicRewriting.Machine.Search
import SymbolicRewriting.Pool
import SymbolicRewriting.Proof.Tree
import SymbolicRewriting.Proof.Snapshot
import SymbolicRewriting.Proof.Merge
import SymbolicRewriting.Proof.Prover
import SymbolicRewriting.Proofs.Run
import SymbolicRewriting.Proofs.Valuation
import SymbolicRewriting.Proofs.Coverage
import SymbolicRewriting.Proofs.PoolResults
import SymbolicRewriting.Proofs.ProofGraph
import SymbolicRewriting.Proofs.Progress
import SymbolicRewriting.Proofs.Settlement
import SymbolicRewriting.Proofs.Search
import SymbolicRewriting.Proofs.Verdict
import SymbolicRewriting.Proofs.Variables
import SymbolicRewriting.Proofs.TermEquality
import SymbolicRewriting.Proofs.Hooks
import SymbolicRewriting.Proofs.Identities
import SymbolicRewriting.Proofs.MatchingIdentities
import SymbolicRewriting.Proofs.Repeatability
import SymbolicRewriting.Proofs.Values
import SymbolicRewriting.Proofs.Instances
import SymbolicRewriting.Proofs.Choices
import SymbolicRewriting.Proofs.EarlyEvaluation
import SymbolicRewriting.Proofs.Encounters
import SymbolicRewriting.Proofs.Overlays
import SymbolicRewriting.Proofs.MatchFindings
import SymbolicRewriting.Proofs.Oversights
import SymbolicRewriting.Proofs.Congruence
import SymbolicRewriting.Proofs.Places
import SymbolicRewriting.Proofs.Exploration
import SymbolicRewriting.Proofs.MatchSteps
import SymbolicRewriting.Proofs.Conformance
import SymbolicRewriting.Proofs.Singletons
import SymbolicRewriting.Proofs.MatchSoundness
import SymbolicRewriting.Proofs.Acceptance
import SymbolicRewriting.Proofs.MatchProgress
import SymbolicRewriting.Proofs.SegmentProgress
import SymbolicRewriting.Proofs.MatchCompleteness
import SymbolicRewriting.Proofs.Recovery
import SymbolicRewriting.Proofs.LostInstances
import SymbolicRewriting.Proofs.Unfolding
import SymbolicRewriting.Proofs.RuleIndexing
import SymbolicRewriting.Proofs.DirectSteps
import SymbolicRewriting.Proofs.GroundSearch
import SymbolicRewriting.Proofs.Lineage
import SymbolicRewriting.Proofs.Guesses
import SymbolicRewriting.Proofs.SortOrder
import SymbolicRewriting.Proofs.InstanceMatches
import SymbolicRewriting.Proofs.InstanceSteps
import SymbolicRewriting.Proofs.Levels
import SymbolicRewriting.Proofs.Cancellation
import SymbolicRewriting.Proofs.StepRepeatability
import SymbolicRewriting.Proofs.BlindOracles
import SymbolicRewriting.Proofs.TreeIdentities
import SymbolicRewriting.Proofs.Scheduling
import SymbolicRewriting.Proofs.Rearrangements
import SymbolicRewriting.Proofs.EqualSubjects
import SymbolicRewriting.Proofs.EqualMatches
import SymbolicRewriting.Proofs.EqualEvaluation
import SymbolicRewriting.Proofs.GroundSubjects
import SymbolicRewriting.Proofs.EqualSteps
import SymbolicRewriting.Proofs.Fingerprints
import SymbolicRewriting.Proofs.Distances
import SymbolicRewriting.Proofs.SearchRounds
import SymbolicRewriting.Proofs.BreadthFirst
import SymbolicRewriting.Proofs.CellIdentities
import SymbolicRewriting.Proofs.MatchedIdentities
import SymbolicRewriting.Proofs.DrawnIdentities
import SymbolicRewriting.Proofs.DistinctIdentities
import SymbolicRewriting.Proofs.EqualValues
import SymbolicRewriting.Proofs.TruthValues
import SymbolicRewriting.Proofs.SyntacticAnswers
import SymbolicRewriting.Proofs.NestingLimits
import SymbolicRewriting.Proofs.Everywhere
import SymbolicRewriting.Proofs.BuiltTerms
import SymbolicRewriting.Proofs.Arities
import SymbolicRewriting.Proofs.NormalForms
import SymbolicRewriting.Proofs.RightSides
import SymbolicRewriting.Proofs.CellChanges
import SymbolicRewriting.Proofs.Renamings
import SymbolicRewriting.Proofs.BoundVariables
import SymbolicRewriting.Proofs.Hygiene
import SymbolicRewriting.Proofs.Compositional
import SymbolicRewriting.Proofs.StepAgreement
import SymbolicRewriting.Proofs.AllRules
import SymbolicRewriting.Proofs.Backtracking
import SymbolicRewriting.Proofs.DistinctMatches
import SymbolicRewriting.Proofs.CellPairs
import SymbolicRewriting.Proofs.UnpairedCells
import SymbolicRewriting.Proofs.SharedContexts
import SymbolicRewriting.Proofs.FreshValues
import SymbolicRewriting.Proofs.VisitedStates
import SymbolicRewriting.Proofs.FlatSequences
import SymbolicRewriting.Proofs.MatchedVariables
import SymbolicRewriting.Proofs.FlatResults
import SymbolicRewriting.Proofs.Composition
import SymbolicRewriting.Proofs.PropositionalReasoning
import SymbolicRewriting.Proofs.SearchLimits
import SymbolicRewriting.Proofs.Budgets
import SymbolicRewriting.Proofs.SelfMatches
import SymbolicRewriting.Proofs.ReflexiveGoals
import SymbolicRewriting.Proofs.IntegerArithmetic
import SymbolicRewriting.Proofs.IteratedSteps
import SymbolicRewriting.Proofs.Spellings
import SymbolicRewriting.Proofs.SubstitutionTables
import SymbolicRewriting.Proofs.KeptRules
import SymbolicRewriting.Proofs.NestedCalls
import SymbolicRewriting.Proofs.Worklist
import SymbolicRewriting.Proofs.Preorder
