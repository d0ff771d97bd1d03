import LoopNest.Cluster
import LoopNest.CommandLine.Arguments
import LoopNest.CommandLine.Binding
import LoopNest.CommandLine.Report
import LoopNest.Decimal.Layout
import LoopNest.Decimal.Reading
import LoopNest.Decimal.Shortest
import LoopNest.Dependence.Analysis
import LoopNest.Dependence.Distance
import LoopNest.Dependence.Edge
import LoopNest.DimTable.Basic
import LoopNest.DimTable.Build
import LoopNest.DimTable.Extent
import LoopNest.Equation
import LoopNest.Expr.Basic
import LoopNest.Expr.Fold
import LoopNest.Expr.Occurrence
import LoopNest.Expr.Text
import LoopNest.Guard
import LoopNest.Journal
import LoopNest.Json.Document
import LoopNest.Json.Token
import LoopNest.Json.Value
import LoopNest.Level
import LoopNest.Lowered
import LoopNest.Main
import LoopNest.Nest
import LoopNest.Options
import LoopNest.Problem.Basic
import LoopNest.Problem.Decode
import LoopNest.Problem.Program
import LoopNest.Program
import LoopNest.Proofs.Addressing
import LoopNest.Proofs.Alone
import LoopNest.Proofs.BindingSyntax
import LoopNest.Proofs.Buffers
import LoopNest.Proofs.Causality
import LoopNest.Proofs.Chain
import LoopNest.Proofs.Checked.Clusters
import LoopNest.Proofs.Checked.Dependence
import LoopNest.Proofs.Checked.Dimensions
import LoopNest.Proofs.Checked.Guards
import LoopNest.Proofs.Checked.Lowering
import LoopNest.Proofs.Checked.Programs
import LoopNest.Proofs.Checked.Run
import LoopNest.Proofs.Checked.Runs
import LoopNest.Proofs.Checked.Text
import LoopNest.Proofs.Checked.Trees
import LoopNest.Proofs.Closed
import LoopNest.Proofs.Clustering
import LoopNest.Proofs.Conflict
import LoopNest.Proofs.ConflictOrder
import LoopNest.Proofs.Conjunctions
import LoopNest.Proofs.Construction
import LoopNest.Proofs.Demand
import LoopNest.Proofs.Dependence
import LoopNest.Proofs.Division
import LoopNest.Proofs.Divisors
import LoopNest.Proofs.Domain
import LoopNest.Proofs.EdgeOrder
import LoopNest.Proofs.Element
import LoopNest.Proofs.Evaluation
import LoopNest.Proofs.Execution
import LoopNest.Proofs.Extents
import LoopNest.Proofs.FailingRuns
import LoopNest.Proofs.Failure
import LoopNest.Proofs.Fences
import LoopNest.Proofs.Folding
import LoopNest.Proofs.Fusion
import LoopNest.Proofs.FutureReads
import LoopNest.Proofs.Guards
import LoopNest.Proofs.Handles
import LoopNest.Proofs.Hoisting
import LoopNest.Proofs.Independence
import LoopNest.Proofs.IndexValues
import LoopNest.Proofs.Kinds
import LoopNest.Proofs.LastWrite
import LoopNest.Proofs.Layout
import LoopNest.Proofs.Legibility
import LoopNest.Proofs.Lookups
import LoopNest.Proofs.Lowering
import LoopNest.Proofs.Meeting
import LoopNest.Proofs.NamesApart
import LoopNest.Proofs.Naming
import LoopNest.Proofs.Narrowing
import LoopNest.Proofs.Neighbours
import LoopNest.Proofs.Overtaking
import LoopNest.Proofs.PairOrder
import LoopNest.Proofs.Parameters
import LoopNest.Proofs.Parts
import LoopNest.Proofs.Paths
import LoopNest.Proofs.Places
import LoopNest.Proofs.Queries
import LoopNest.Proofs.Reader
import LoopNest.Proofs.Reading
import LoopNest.Proofs.Rearranging
import LoopNest.Proofs.Renaming
import LoopNest.Proofs.Rewriting
import LoopNest.Proofs.SameTree
import LoopNest.Proofs.Settled
import LoopNest.Proofs.SharedTime
import LoopNest.Proofs.Snapshots
import LoopNest.Proofs.Subdomain
import LoopNest.Proofs.SubdomainPairs
import LoopNest.Proofs.Substitution
import LoopNest.Proofs.Success
import LoopNest.Proofs.Sweep
import LoopNest.Proofs.Tagging
import LoopNest.Proofs.Turns
import LoopNest.Proofs.Ways
import LoopNest.Schedule
import LoopNest.SortedSet
import LoopNest.Text.Blank
import LoopNest.Trace
import LoopNest.Tree.Basic
import LoopNest.Tree.Build
import LoopNest.Tree.Text
import LoopNest.Word
