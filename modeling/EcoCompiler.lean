import EcoCompiler.Utf8Spec
import EcoCompiler.Utf8Kernel
import EcoCompiler.Utf8KernelProofs
import EcoCompiler.Utf8Agreement
import EcoCompiler.Utf8Lossy
import EcoCompiler.StreamCodec
import EcoCompiler.StreamCodecProofs
import EcoCompiler.BitmapScan
import EcoCompiler.BitmapScanProofs
import EcoCompiler.MinorWork
import EcoCompiler.MinorWorkProofs
import EcoCompiler.WsFrame
import EcoCompiler.WsFrameByteProofs
import EcoCompiler.WsFrameFeedProofs
import EcoCompiler.WsFrameSpec
import EcoCompiler.WsFrameHeaderProofs
import EcoCompiler.WsFrameReferenceProofs
import EcoCompiler.WsFrameRoundTrip
import EcoCompiler.CanonicalPatterns
import EcoCompiler.PatternMatches
import EcoCompiler.PatternMatchesSpec
import EcoCompiler.PatternMatchesProofs
import EcoCompiler.PatternMatchesCheck
import EcoCompiler.DecisionTree
import EcoCompiler.DecisionTreeSpec
import EcoCompiler.DecisionTreeProofs
import EcoCompiler.CaseDecider
import EcoCompiler.CaseDeciderProofs
import EcoCompiler.WsCore
import EcoCompiler.WsCoreStep
import EcoCompiler.WsCoreRun
import EcoCompiler.WsCoreTalk
import EcoCompiler.WsCoreQuiet
import EcoCompiler.WsCoreTalkProofs
import EcoCompiler.WsCorePumpProofs
import EcoCompiler.WsCoreQueueProofs
import EcoCompiler.WsCoreTalkRuns
import EcoCompiler.WsCorePause
import EcoCompiler.WsCorePauseProofs
import EcoCompiler.WsCorePauseInput
import EcoCompiler.WsCorePauseFeed
import EcoCompiler.WsCorePauseRuns
import EcoCompiler.WsCorePauseStall
import EcoCompiler.Double
import EcoCompiler.HostInt
import EcoCompiler.PrefixVarInt
import EcoCompiler.VarInt
import EcoCompiler.Dict
import EcoCompiler.ElmConstraint
import EcoCompiler.Solver
import EcoCompiler.SolverGuided
import EcoCompiler.SolverAnswers
import EcoCompiler.PatternAgreement
import EcoCompiler.WorkStealingDequeRuns
import EcoCompiler.GraphProofs
import EcoCompiler.PageWorkProofs
import EcoCompiler.ConstraintParser
import EcoCompiler.ParseNumberProofs
import EcoCompiler.PruneProofs
import EcoCompiler.HostCheckProofs
import EcoCompiler.StringSplitProofs
import EcoCompiler.SolverAppProofs
import EcoCompiler.ParseStringProofs
import EcoCompiler.PathStable
import EcoCompiler.BlockTableProofs
import EcoCompiler.Int64Literal
import EcoCompiler.ParseSpaceProofs
import EcoCompiler.JsonRoundTrip
import EcoCompiler.JsonRecursion
import EcoCompiler.BorrowSolve
import EcoCompiler.BorrowSolveProofs
import EcoCompiler.IrSectionProofs
