import Harc.Fallible
import Harc.TestbenchIr
import Harc.CoroutineLowering
import Harc.CoroutineRefinement
import Harc.IrExpr
import Harc.FunctionBuilder
import Harc.TraceSimulation
import Harc.StructuredControl
import Harc.ControlLowering
import Harc.ControlLayout
import Harc.ControlFrame
import Harc.ControlSimulation
import Harc.ControlTargets
import Harc.BlockPruning
import Harc.ControlResolution
import Harc.ControlCorrectness
import Harc.WordLists
import Harc.TwosComplement
import Harc.ExactMagnitude
import Harc.ExactArithmetic
import Harc.ExactCorrectness
import Harc.WideRuntime
import Harc.SolverSession
import Harc.ConstraintExpr
import Harc.RandomizeSite
import Harc.RandomizeSolve
import Harc.RandomizeUnsat
import Harc.ConstraintEmission
import Harc.RandomizeHistory
import Harc.CppScalar
import Harc.RegblockLowering
import Harc.RegblockAccess
import Harc.RegblockMirror
import Harc.SmtScript
import Harc.TypedConstraint
import Harc.Z3Emission
import Harc.Z3WellFormed
import Harc.Z3Meaning
import Harc.TypedMeaning
import Harc.Ast
import Harc.RelationExpansion
import Harc.RelationMeaning
import Harc.ExpansionResult
import Harc.ReachedCalls
import Harc.RelationNesting
import Harc.RelationUnfolding
import Harc.RelationRecursion
import Harc.ConstraintSchema
import Harc.TypedLowering
import Harc.LoweringState
import Harc.ConstraintTyping
import Harc.NameResolution
import Harc.LoweringVerified
import Harc.ProblemVerified
import Harc.StrongComponents
import Harc.PlacementPropagation
import Harc.PlacementOrder
import Harc.CosimBridge
import Harc.FnvHash
import Harc.ProblemTable
import Harc.TraceMerge
import Harc.TraceMergeReading
import Harc.TraceMergeLoop
import Harc.TraceMergeSound
import Harc.TraceMergeDump
import Harc.ThreadScheduler
import Harc.ThreadSchedulerSound
import Harc.PlacementCheck
import Harc.PlacementComplete
import Harc.KeepCollection
import Harc.RecordKeeps
import Harc.RecordKeepsSound
import Harc.RecordKeepsRules
import Harc.TopologicalSort
import Harc.SolveOrder
import Harc.AddrmapBinding
import Harc.BoundedCount
import Harc.WaitBudget
import Harc.WaitTimeout
import Harc.OperatorGrouping
import Harc.InfixParser
import Harc.FieldFlattening
import Harc.SolverNames
import Harc.ListBounds
import Harc.ConstantTerms
import Harc.CppExpressions
import Harc.CountedLoops
import Harc.RangeLoops
import Harc.RangeVisits
import Harc.FieldRanges
import Harc.AutoCoverage
import Harc.WideBits
import Harc.SignedDivision
import Harc.DivisionTiers
import Harc.ShiftTiers
import Harc.BitFields
import Harc.FieldAccess
import Harc.DecimalText
import Harc.ExactConversions
import Harc.PositionalDigits
import Harc.SizedLiterals
import Harc.TemporalOccurrences
import Harc.InterpolatedStrings
import Harc.PrintfFormat
import Harc.InterpolationFormat
import Harc.CallbackCaptures
import Harc.CarrierArithmetic
import Harc.ArchArithmetic
import Harc.WidthCasts
import Harc.DepthFirstOrder
import Harc.ShortestPath
import Harc.ComponentModes
import Harc.CoroutineLoops
import Harc.CallableOrder
import Harc.SplitMix
import Harc.RandomRanges
import Harc.ExtendMerge
import Harc.JsonStrings
import Harc.Sweeps
import Harc.AutoCoverageMarks
import Harc.AutoCoverageSweeps
import Harc.ScalarEvidence
import Harc.RelationBudget
import Harc.PrefixCodes
import Harc.RuntimeCells
import Harc.CellSymbols
import Harc.VerifiedHooks
import Harc.DistinctCells
import Harc.PlacementComponents
import Harc.CppLiterals
import Harc.StringEscapes
import Harc.NameScopes
import Harc.FunctionLocals
import Harc.IntLiterals
import Harc.RandomSeeds
import Harc.LoweredCoroutines
