import MicroP4.Tofino.LayoutAgreement
import MicroP4.Deparser.EmitLayout
import MicroP4.Deparser.OpsLayout
import MicroP4.Analysis.HdrValidityRecords
import MicroP4.Analysis.ValidityCoverage
import MicroP4.Foundations.Assignments
import MicroP4.Parsing.Unroll
import MicroP4.Parsing.Actions
import MicroP4.Parsing.ActionEffect
import MicroP4.Parsing.PathComposition
import MicroP4.Parsing.ActionCorrect
import MicroP4.Foundations.MatchTable
import MicroP4.Parsing.Table
import MicroP4.Parsing.TableSearch
import MicroP4.Parsing.TableRun
import MicroP4.Parsing.SelectKeys
import MicroP4.Parsing.Selection
import MicroP4.Parsing.SelectionCorrect
import MicroP4.Parsing.StateMachine
import MicroP4.Parsing.TableForm
import MicroP4.Parsing.TableColumns
import MicroP4.Parsing.TableWellFormed
import MicroP4.Partitioning.AllPartitions
import MicroP4.Partitioning.PipelineControls
import MicroP4.Analysis.RecordedOps
import MicroP4.V1Model.ByteParser
import MicroP4.Validity.HdrToStructs
import MicroP4.Flattening.ArgumentMap
import MicroP4.Flattening.CPackageToControl
import MicroP4.Composition.InitialOffsets
import MicroP4.Foundations.ChainDepth
import MicroP4.Pruning.CallGraph
import MicroP4.Pruning.XoredHeaderSets
import MicroP4.Pruning.LoopEnd
import MicroP4.Pruning.RowPruning
import MicroP4.Parsing.SavedOffset
import MicroP4.Composition.OffsetRestoration
import MicroP4.Foundations.Worklist
import MicroP4.Unrolling.StateInstances
import MicroP4.Unrolling.ParserRuns
import MicroP4.Unrolling.ExactCoverage
import MicroP4.Parsing.ExtractPlacement
import MicroP4.Tofino.ReduceConcat
import MicroP4.Tofino.FoldSlices
import MicroP4.Tofino.FoldSlicesCorrect
import MicroP4.Deparser.MoveRanges
import MicroP4.Deparser.MoveOrder
import MicroP4.Flattening.UnusedApplyParams
import MicroP4.Flattening.UnusedParamsRound
import MicroP4.Flattening.UnusedParamsCorrect
import MicroP4.Foundations.Recurrence
import MicroP4.Unrolling.Situations
import MicroP4.Unrolling.Termination
import MicroP4.Composition.MergeDeclarations
import MicroP4.Deparser.EmitSchedule
import MicroP4.Deparser.RowBookkeeping
import MicroP4.Deparser.MovedRuns
import MicroP4.Partitioning.DeparserInverter
import MicroP4.Partitioning.MovesNeeded
import MicroP4.Partitioning.ReparsingRows
import MicroP4.Foundations.Components
import MicroP4.Foundations.Exploration
import MicroP4.Foundations.Dominance
import MicroP4.Foundations.Relocation
import MicroP4.Foundations.SplitCall
import MicroP4.Foundations.OtherCalls
import MicroP4.Graphs.SccSort
import MicroP4.Graphs.StateOrder
import MicroP4.Graphs.Dominators
import MicroP4.Partitioning.Statements
import MicroP4.Partitioning.Declarations
import MicroP4.Partitioning.SlicePipeControl
import MicroP4.Partitioning.CutPlaces
import MicroP4.Partitioning.UsedDeclarations
import MicroP4.Partitioning.SliceCorrect
import MicroP4.Partitioning.SlicedPrograms
import MicroP4.Partitioning.SlicePlacement
import MicroP4.Composition.HitRows
import MicroP4.Composition.PacketRoundTrip
