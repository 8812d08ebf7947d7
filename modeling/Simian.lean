import Simian.Main
import Simian.Proofs.CompileSteps
import Simian.Proofs.CompiledUnits
import Simian.Proofs.InstructionEffects
import Simian.Proofs.LayoutVerification
import Simian.Proofs.Snapshot
import Simian.Proofs.Closures
import Simian.Proofs.StepMoves
import Simian.Proofs.RunningStates
import Simian.Proofs.RunSafety
import Simian.Proofs.StackDiscipline
import Simian.Proofs.Nesting
import Simian.Proofs.SettledPrograms
import Simian.Proofs.EngineValues
import Simian.Proofs.AddedNames
import Simian.Proofs.Lookups
import Simian.Proofs.JointStates
import Simian.Proofs.FunctionSupport
import Simian.Proofs.InstructionAgreement
import Simian.Proofs.LiteralAgreement
import Simian.Proofs.ExpressionAgreement
import Simian.Proofs.LocalAgreement
import Simian.Proofs.BodyAgreement
import Simian.Proofs.CallAgreement
import Simian.Proofs.CompileRollback
import Simian.Proofs.Printing
import Simian.Proofs.MachineReuse
import Simian.Proofs.Halting
import Simian.Proofs.TreeEquality
import Simian.Proofs.ParsedTrees
import Simian.Proofs.ProgramAgreement
import Simian.Proofs.EngineAgreement
import Simian.Proofs.FaultAgreement
import Simian.Proofs.WrittenTrees
import Simian.Proofs.WordReading
import Simian.Proofs.PhraseReading
import Simian.Proofs.WordGrouping
import Simian.Proofs.Scanning
import Simian.Proofs.TreeSpelling
import Simian.Proofs.RoundTrip
import Simian.Proofs.ConstantSharing
import Simian.Proofs.TreeRenderings
import Simian.Proofs.TakenWords
import Simian.Proofs.LosslessReading
import Simian.Proofs.AcceptedSources
import Simian.Proofs.StackMemory
import Simian.Proofs.UnguardedRuns
import Simian.Proofs.CrashFreedom
import Simian.Proofs.EvaluationDepth
import Simian.Proofs.PlainValues
import Simian.Proofs.InlineExpressions
import Simian.Proofs.SingleFrameCode
import Simian.Proofs.InlineSimulation
import Simian.Proofs.DraftCode
import Simian.Proofs.CompileScripts
import Simian.Proofs.CompileRecords
import Simian.Proofs.RecordInvariants
import Simian.Proofs.OperandWidths
import Simian.Proofs.CaptureOverflow
import Simian.Proofs.TokenTiling
import Simian.Proofs.ErrorPlaces
import Simian.Proofs.LexicalScoping
import Simian.Proofs.BuilderRefinement
import Simian.Proofs.InstructionStreams
import Simian.Proofs.LineTableAgreement
import Simian.Proofs.TreeDerivations
import Simian.Proofs.TreeSpans
import Simian.Proofs.EvaluatorBalance
import Simian.Proofs.EvaluatorTermination
import Simian.Proofs.IntegerExactness
import Simian.Proofs.ValueEquality
import Simian.Proofs.HashLaws
import Simian.Proofs.CaretPlacement
import Simian.Proofs.NumeralValues
import Simian.Proofs.TableSlots
import Simian.Proofs.OperatorAgreement
import Simian.Proofs.ParserTermination
import Simian.Proofs.DefiniteAssignment
import Simian.Proofs.SlotLedger
import Simian.Proofs.StackAsList
