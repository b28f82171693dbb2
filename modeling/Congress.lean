import Congress.Lib.PriorityQueue
import Congress.Lib.Run
import Congress.Lib.Stateful
import Congress.DataService
import Congress.Proofs.Receiving
import Congress.Proofs.QueueTimes
import Congress.Proofs.Delivery
import Congress.Proofs.Publication
import Congress.Lib.Digraph
import Congress.Graph
import Congress.Syntax
import Congress.RuleGraph
import Congress.Proofs.Search
import Congress.Proofs.HasCycle
import Congress.Triggers
import Congress.Subscribers
import Congress.Proofs.Triggers
import Congress.Proofs.Subscribers
import Congress.Unify
import Congress.RuleSet
import Congress.Safety
import Congress.Columns
import Congress.TopDown
import Congress.Database
import Congress.Materialized
import Congress.Policies
import Congress.Runtime
import Congress.Lib.Changes
import Congress.Lib.Stratified
import Congress.Proofs.Unification
import Congress.Proofs.Reordering
import Congress.Proofs.Databases
import Congress.PolicyModel
import Congress.Proofs.Semantics
import Congress.Proofs.Evaluation
import Congress.Proofs.TopDownEval
import Congress.Proofs.EvalOk
import Congress.Proofs.HeadIndex
import Congress.Proofs.Select
import Congress.Proofs.ViewEvaluation
import Congress.Statements
import Congress.Lib.Totals
import Congress.Proofs.RuleStores
import Congress.Proofs.Tuples
import Congress.Proofs.ViewUpdates
import Congress.Proofs.Updates
import Congress.Proofs.RuntimeCalls
import Congress.Proofs.Routing
import Congress.DseRuntime
import Congress.Proofs.Subscriptions
import Congress.Persistence
import Congress.Proofs.Persistence
import Congress.Lib.Usage
import Congress.Proofs.Schemas
import Congress.Proofs.Weights
import Congress.Proofs.Arity
import Congress.Proofs.SchemaUses
import Congress.Proofs.Deferred
import Congress.Z3Theory
import Congress.Proofs.Cycles
import Congress.Proofs.Reachability
import Congress.Proofs.Bags
import Congress.Subpolicy
import Congress.Proofs.Subpolicies
import Congress.Proofs.ColumnReferences
import Congress.ExecApi
import Congress.Proofs.ExecApi
import Congress.Lib.Numerals
import Congress.JsonIngester
import Congress.Proofs.JsonIngester
import Congress.Proofs.MostGeneral
import Congress.Translators
import Congress.Proofs.Translators
import Congress.Abduction
import Congress.Proofs.Resolution
import Congress.Proofs.Abduction
import Congress.Proofs.Answers
import Congress.Proofs.BagHistories
import Congress.Lib.Ledger
import Congress.Proofs.ModalShelves
import Congress.Proofs.Undo
import Congress.FactSet
import Congress.Proofs.FactSets
import Congress.Constants
import Congress.Proofs.RuleSetHistories
import Congress.Sameness
import Congress.Proofs.Renamings
import Congress.Proofs.Instances
import Congress.Lib.Comparisons
import Congress.LiteralOrder
import Congress.Proofs.RuleEquality
import Congress.NetworkAddress
import Congress.SearchMarks
import Congress.Proofs.SearchMarks
import Congress.Lib.Strata
import Congress.Stratification
import Congress.Z3Types
import Congress.Proofs.Z3Types
import Congress.LpLang
import Congress.Proofs.LpEquality
import Congress.CfgTypes
import Congress.Proofs.CfgTypes
import Congress.Lib.Extension
import Congress.PureLp
import Congress.Proofs.PureLp
import Congress.Lib.Rounds
import Congress.Typechecker
import Congress.Proofs.Typechecker
import Congress.Leadership
import Congress.ModalIndexes
import Congress.Proofs.ModalIndexes
import Congress.Lib.Grouped
import Congress.DeltaRules
import Congress.Proofs.DeltaRules
import Congress.Lib.Weights
import Congress.Lib.Lockstep
import Congress.Backtracking
import Congress.Proofs.Backtracking
import Congress.Proofs.Restoring
import Congress.Proofs.SearchEnds
import Congress.Proofs.ViewRules
import Congress.Proofs.ViewEvents
import Congress.Proofs.ViewSteps
import Congress.Lib.Worklists
import Congress.Proofs.ViewRuns
import Congress.Proofs.ViewHistories
import Congress.Explanations
import Congress.Proofs.Explanations
import Congress.Proofs.ViewChanges
import Congress.Lib.StableModels
import Congress.Proofs.SelfJoins
import Congress.Proofs.JoinedViews
import Congress.Proofs.StoredGraph
import Congress.Proofs.StoredRuns
import Congress.Notifications
import Congress.Proofs.Locality
import Congress.Proofs.NotifiedRuns
import Congress.Proofs.Refusals
