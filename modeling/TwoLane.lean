import TwoLane.Block.Basic
import TwoLane.Block.Dependency
import TwoLane.Block.Dominance
import TwoLane.Block.Inlining
import TwoLane.Block.LaneView
import TwoLane.Block.Level
import TwoLane.Block.Ranking
import TwoLane.Block.Reach
import TwoLane.Command.Answer
import TwoLane.Command.Error
import TwoLane.Command.Files
import TwoLane.Command.Request
import TwoLane.Decimal.Binary
import TwoLane.Decimal.Reader
import TwoLane.Decimal.Shortest
import TwoLane.Decimal.Style
import TwoLane.Document.Basic
import TwoLane.Document.Record
import TwoLane.HybridProgram
import TwoLane.HybridProgram.Overview
import TwoLane.HybridProgram.Table
import TwoLane.Instruction.Basic
import TwoLane.Instruction.Occurrence
import TwoLane.Instruction.Operand
import TwoLane.Instruction.Operation
import TwoLane.InstructionList.Basic
import TwoLane.InstructionList.Change
import TwoLane.Json.Basic
import TwoLane.Json.Document
import TwoLane.Line.Category
import TwoLane.Line.Classification
import TwoLane.Line.Touch
import TwoLane.Main
import TwoLane.Memory
import TwoLane.Number
import TwoLane.Optimize.Constants
import TwoLane.Optimize.Cost
import TwoLane.Optimize.Error
import TwoLane.Optimize.Evaluation
import TwoLane.Optimize.Folding
import TwoLane.Optimize.Hybrid
import TwoLane.Optimize.Liveness
import TwoLane.Optimize.Removal
import TwoLane.Optimize.Report
import TwoLane.Optimize.Run
import TwoLane.Optimize.Search
import TwoLane.Optimize.Step
import TwoLane.Optimize.Workspace
import TwoLane.ProgramError
import TwoLane.Proofs.Block.Apart
import TwoLane.Proofs.Block.BlockName
import TwoLane.Proofs.Block.Bound
import TwoLane.Proofs.Block.Construction
import TwoLane.Proofs.Block.Copies
import TwoLane.Proofs.Block.Dominance
import TwoLane.Proofs.Block.Dominators
import TwoLane.Proofs.Block.Failures
import TwoLane.Proofs.Block.Fresh
import TwoLane.Proofs.Block.Graph
import TwoLane.Proofs.Block.LaneViews
import TwoLane.Proofs.Block.Levels
import TwoLane.Proofs.Block.Loops
import TwoLane.Proofs.Block.Machine
import TwoLane.Proofs.Block.Nested
import TwoLane.Proofs.Block.Paths
import TwoLane.Proofs.Block.Place
import TwoLane.Proofs.Block.PlainNames
import TwoLane.Proofs.Block.Ranking
import TwoLane.Proofs.Block.Ranks
import TwoLane.Proofs.Block.Reach
import TwoLane.Proofs.Block.Scopes
import TwoLane.Proofs.Block.Shape
import TwoLane.Proofs.Block.SimplePaths
import TwoLane.Proofs.Block.States
import TwoLane.Proofs.Block.Termination
import TwoLane.Proofs.Block.Unfolding
import TwoLane.Proofs.Block.Visibility
import TwoLane.Proofs.Chain.Dependencies
import TwoLane.Proofs.Chain.Edits
import TwoLane.Proofs.Chain.Exact
import TwoLane.Proofs.Chain.Facts
import TwoLane.Proofs.Chain.Links
import TwoLane.Proofs.Chain.Lookup
import TwoLane.Proofs.Chain.Occurrences
import TwoLane.Proofs.Chain.Removal
import TwoLane.Proofs.Chain.Shape
import TwoLane.Proofs.Chain.Surgery
import TwoLane.Proofs.Chain.Threads
import TwoLane.Proofs.Constants.Evaluate
import TwoLane.Proofs.Constants.Founded
import TwoLane.Proofs.Constants.Truth
import TwoLane.Proofs.Decimal.Parts
import TwoLane.Proofs.Decimal.Reading
import TwoLane.Proofs.Decimal.Rounding
import TwoLane.Proofs.Decimal.Scientific
import TwoLane.Proofs.Execution.Analyses
import TwoLane.Proofs.Execution.Becoming
import TwoLane.Proofs.Execution.Coherence
import TwoLane.Proofs.Execution.Device
import TwoLane.Proofs.Execution.Evolution
import TwoLane.Proofs.Execution.Facts
import TwoLane.Proofs.Execution.Folding
import TwoLane.Proofs.Execution.Folding.Hybrid
import TwoLane.Proofs.Execution.Folding.Operands
import TwoLane.Proofs.Execution.Folding.Outcome
import TwoLane.Proofs.Execution.Folding.Rules
import TwoLane.Proofs.Execution.Folding.Settled
import TwoLane.Proofs.Execution.Folding.Values
import TwoLane.Proofs.Execution.Grounded
import TwoLane.Proofs.Execution.Guards
import TwoLane.Proofs.Execution.Metrics
import TwoLane.Proofs.Execution.NewLists
import TwoLane.Proofs.Execution.Order
import TwoLane.Proofs.Execution.Passes
import TwoLane.Proofs.Execution.Path
import TwoLane.Proofs.Execution.Precedence
import TwoLane.Proofs.Execution.Removal
import TwoLane.Proofs.Execution.Reordering
import TwoLane.Proofs.Execution.Rewriting
import TwoLane.Proofs.Execution.Scheduling
import TwoLane.Proofs.Execution.Steps
import TwoLane.Proofs.Execution.Truthful
import TwoLane.Proofs.Instruction.Literals
import TwoLane.Proofs.Instruction.Operands
import TwoLane.Proofs.Line.Conditions
import TwoLane.Proofs.Liveness.Fixpoint
import TwoLane.Proofs.Liveness.Indexed
import TwoLane.Proofs.Liveness.Judged
import TwoLane.Proofs.Liveness.Least
import TwoLane.Proofs.Liveness.Order
import TwoLane.Proofs.Liveness.Paths
import TwoLane.Proofs.Liveness.Relied
import TwoLane.Proofs.Liveness.Rounds
import TwoLane.Proofs.Liveness.Settled
import TwoLane.Proofs.Liveness.Swaps
import TwoLane.Proofs.Liveness.Worked
import TwoLane.Proofs.Memory.Indexed
import TwoLane.Proofs.Memory.IndexedMachine
import TwoLane.Proofs.Memory.IndexedStep
import TwoLane.Proofs.Program.Conflicts
import TwoLane.Proofs.Program.Declarations
import TwoLane.Proofs.Program.Entry
import TwoLane.Proofs.Program.Failures
import TwoLane.Proofs.Program.Fixpoint
import TwoLane.Proofs.Program.Flow
import TwoLane.Proofs.Program.LastTouches
import TwoLane.Proofs.Program.Lists
import TwoLane.Proofs.Program.Printing
import TwoLane.Proofs.Program.Results
import TwoLane.Proofs.Result
import TwoLane.Proofs.Schedule.Balanced
import TwoLane.Proofs.Schedule.Cost
import TwoLane.Proofs.Schedule.Easing
import TwoLane.Proofs.Schedule.Emission
import TwoLane.Proofs.Schedule.Filling
import TwoLane.Proofs.Schedule.Indifference
import TwoLane.Proofs.Schedule.Lanes
import TwoLane.Proofs.Schedule.Leading
import TwoLane.Proofs.Schedule.Maps
import TwoLane.Proofs.Schedule.NormalForm
import TwoLane.Proofs.Schedule.OneSided
import TwoLane.Proofs.Schedule.Pieces
import TwoLane.Proofs.Schedule.Priority
import TwoLane.Proofs.Schedule.Renewal
import TwoLane.Proofs.Schedule.Runs
import TwoLane.Proofs.Schedule.Settled
import TwoLane.Proofs.Schedule.Sides
import TwoLane.Proofs.Schedule.Slowdown
import TwoLane.Proofs.Schedule.Ties
import TwoLane.Proofs.Schedule.Turn
import TwoLane.Proofs.Schedule.Validity
import TwoLane.Proofs.Sorted
import TwoLane.Proofs.Text.Tidy
import TwoLane.Proofs.Text.Trim
import TwoLane.Proofs.Tree.Drafts
import TwoLane.Qubit
import TwoLane.Resource
import TwoLane.Schedule.Balanced
import TwoLane.Schedule.Emission
import TwoLane.Schedule.OneSided
import TwoLane.Settings.Basic
import TwoLane.Settings.File
import TwoLane.Sorted
import TwoLane.Text.Blank
import TwoLane.Text.Cased
import TwoLane.Text.Digits
import TwoLane.Text.Extending
import TwoLane.Text.LowerCase
import TwoLane.Text.LowerCaseTable
import TwoLane.Text.Quoted
import TwoLane.Text.Range
import TwoLane.Text.Unprintable
import TwoLane.Tree.Basic
import TwoLane.Tree.Decode
import TwoLane.Tree.Draft
import TwoLane.Tree.Rule
import TwoLane.Yaml.Document
import TwoLane.Yaml.Scalar
import TwoLane.Yaml.Token
