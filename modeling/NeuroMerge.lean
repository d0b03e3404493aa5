import NeuroMerge.Merging.Ownership
import NeuroMerge.Merging.Nesting
import NeuroMerge.Merging.StateSets
import NeuroMerge.Memory.CopyOnWrite
import NeuroMerge.Memory.ExternalCall
import NeuroMerge.Execution.Exploration
import NeuroMerge.Execution.ProcessTreeProperties
import NeuroMerge.Solver.CexCachingProperties
import NeuroMerge.Classifier.Response
import NeuroMerge.Classifier.MergeGraphProperties
import NeuroMerge.Classifier.Partners
import NeuroMerge.ADT.ImmutableTreeProperties
import NeuroMerge.ADT.TreeStreamProperties
import NeuroMerge.ADT.DiscretePDFSampling
import NeuroMerge.Classifier.SplitProperties
import NeuroMerge.Solver.BuilderProperties
import NeuroMerge.Basic.KTest
import NeuroMerge.Symbolic.Evaluation
import NeuroMerge.Symbolic.ComparisonProperties
import NeuroMerge.Symbolic.Normalization
import NeuroMerge.Merging.Exhaustion
import NeuroMerge.Graph.NodeLink
import NeuroMerge.Graph.Analysis
import NeuroMerge.Graph.Reuse
import NeuroMerge.Graph.Serializer
import NeuroMerge.Graph.BlockNumbers
import NeuroMerge.Posix.SymbolicFilesProperties
import NeuroMerge.Symbolic.CachedVisitor
import NeuroMerge.Module.IntrinsicCleaner
import NeuroMerge.Module.LowerSwitchPass
import NeuroMerge.Execution.ResolveOneProperties
import NeuroMerge.Execution.MemoryInstructionsProperties
import NeuroMerge.ToolLib.LLVMOpsProperties
import NeuroMerge.Classifier.PathBlocksProperties
import NeuroMerge.Solver.StagedSolver
import NeuroMerge.Merging.Coverage
import NeuroMerge.Solver.RangeEvaluatorProperties
import NeuroMerge.Solver.InitialValuesProperties
import NeuroMerge.Solver.Z3Solver
import NeuroMerge.Searching.IterativeDeepening
import NeuroMerge.Execution.Varargs
import NeuroMerge.Kquery.NumberToken
