import StructurePipe.Lib.OverwrittenFile
import StructurePipe.Lib.TextLines
import StructurePipe.Lib.Delimited
import StructurePipe.Lib.Tokens
import StructurePipe.Lib.Substrings
import StructurePipe.Lib.FirstInsertion
import StructurePipe.Lib.OrderedMap
import StructurePipe.Lib.GroupedFolds
import StructurePipe.Lib.StableMultimap
import StructurePipe.Lib.SingleLinks
import StructurePipe.Lib.StepRuns
import StructurePipe.Lib.Interleaving
import StructurePipe.Lib.WorkPool
import StructurePipe.Lib.FixedLabels
import StructurePipe.Lib.LastWrites
import StructurePipe.Lib.NameSupply
import StructurePipe.Lib.CharDistance
import StructurePipe.Lib.IeeeDivision
import StructurePipe.Common.Strings
import StructurePipe.Common.PipeFunctions
import StructurePipe.Common.LexicalCast
import StructurePipe.Common.ParamString
import StructurePipe.Common.ParamRange
import StructurePipe.Common.Paths
import StructurePipe.Common.YamlNode
import StructurePipe.Common.GlobalParameters
import StructurePipe.Utility.DataTable
import StructurePipe.Utility.DataTableMap
import StructurePipe.Utility.DataTableWriter
import StructurePipe.Utility.DataTableText
import StructurePipe.Utility.DataTableTextIdentifies
import StructurePipe.Utility.DataTableWriterSync
import StructurePipe.Utility.DataTableWriterSession
import StructurePipe.Utility.DataTableWriterNotes
import StructurePipe.Utility.DataTableSupport
import StructurePipe.Utility.DataTableRows
import StructurePipe.Utility.DataTableWriterCalls
import StructurePipe.Utility.DataTableWriterBounds
import StructurePipe.Utility.DataTableWriterFailures
import StructurePipe.Utility.DataTableWriterAppend
import StructurePipe.Utility.DataTableDistance
import StructurePipe.Utility.DataTableWriterLoss
import StructurePipe.Blocks.RunPotentialParamsQueue
import StructurePipe.Blocks.ParamsQueueSharing
import StructurePipe.Blocks.ParamsQueueStart
import StructurePipe.Blocks.ParamsQueueChunk
import StructurePipe.Blocks.ParamsQueueProcesses
import StructurePipe.Blocks.ParamLines
import StructurePipe.Blocks.Barrier
import StructurePipe.Blocks.RankingBarrier
import StructurePipe.Blocks.KeepTopN
import StructurePipe.Blocks.KeepWithinXPercent
import StructurePipe.Blocks.KeepWithinWindow
import StructurePipe.Blocks.RemoveDuplicates
import StructurePipe.Blocks.KeepStableCompositions
import StructurePipe.Blocks.BarrierContract
import StructurePipe.Blocks.StableCompositionsAsked
import StructurePipe.Blocks.StableRounds
import StructurePipe.Blocks.SearchStoichiometries
import StructurePipe.Blocks.SearchStoichiometriesTable
import StructurePipe.Blocks.SearchStoichiometriesLowest
import StructurePipe.Blocks.NestedSweeps
import StructurePipe.Blocks.SearchRuns
import StructurePipe.Blocks.CutAndPaste
import StructurePipe.Blocks.PasteFragment
import StructurePipe.Blocks.PerAtomValues
import StructurePipe.Blocks.GeomOptimise
import StructurePipe.Blocks.ParamsSweep
import StructurePipe.Blocks.SweepSummaries
import StructurePipe.Blocks.ProductSweep
import StructurePipe.Blocks.AutoScale
import StructurePipe.Blocks.BuildStructures
import StructurePipe.Blocks.GeneratedSearch
import StructurePipe.Blocks.WriteStructures
import StructurePipe.Blocks.LoadStructures
import StructurePipe.Blocks.WriteThenLoad
import StructurePipe.Blocks.Clone
import StructurePipe.Build.BlockLoader
import StructurePipe.Build.PipeBuilder
import StructurePipe.Build.BlockLoaderType
import StructurePipe.Build.BlockFactory
import StructurePipe.Build.ConfiguredBlocks
import StructurePipe.Build.IndependentEntries
import StructurePipe.Blocks.SelectionStages
import StructurePipe.Blocks.SelectionRounds
import StructurePipe.Blocks.DuplicateRounds
import StructurePipe.Build.WrittenPipe
import StructurePipe.Build.WrittenSelection
import StructurePipe.Build.NestedPipes
import StructurePipe.Utility.DataTableSupportFiles
