import Flecsi.Coloring.OwnerInfo
import Flecsi.Coloring.SerialAdjacency
import Flecsi.Coloring.MatchIds
import Flecsi.Coloring.EntityIds
import Flecsi.Lib.ByteCast
import Flecsi.Coloring.CrsErase
import Flecsi.Coloring.Migrate
import Flecsi.Coloring.Migration
import Flecsi.Coloring.ColorEntities
import Flecsi.Coloring.SharedEntities
import Flecsi.Coloring.EntityManagers
import Flecsi.Coloring.Ownership
import Flecsi.Lib.StrictWeakOrder
import Flecsi.Utils.Serialize
import Flecsi.Utils.SerializeLaws
import Flecsi.Concurrency.ThreadPool
import Flecsi.Topology.Branch
import Flecsi.Topology.Traversal
import Flecsi.Topology.TraversalJoins
import Flecsi.Execution.RemapShared
import Flecsi.Lib.PositionMaps
import Flecsi.Execution.IndexMaps
import Flecsi.Execution.TaskArgs
import Flecsi.Execution.TaskArgsAligned
import Flecsi.Execution.SlotExchange
import Flecsi.Execution.DenseExchange
import Flecsi.Execution.DenseCoherence
import Flecsi.Execution.SparseExchange
import Flecsi.Execution.SparseCoherence
import Flecsi.Execution.SparseRuns
import Flecsi.Data.RowSerdez
import Flecsi.Io.Hdf5
import Flecsi.Lib.KeyedFold
import Flecsi.Io.StagedRows
import Flecsi.Io.Hdf5Recovery
import Flecsi.Lib.TopoOrder
import Flecsi.Utils.Dag
import Flecsi.Utils.DagSort
import Flecsi.ControlModel.Control
import Flecsi.ControlModel.ActionGraphs
import Flecsi.ControlModel.ControlRuns
import Flecsi.Execution.RemapRuns
import Flecsi.Execution.GhostTypes
import Flecsi.Coloring.BoxColorer
import Flecsi.Coloring.BoxStencils
import Flecsi.Coloring.BoxSlabs
import Flecsi.Coloring.BoxPartition
import Flecsi.Coloring.BoxDuality
import Flecsi.Coloring.DomainHalo
import Flecsi.Execution.ClientExchange
import Flecsi.Execution.ClientRefresh
import Flecsi.Topology.BranchCoordinates
import Flecsi.Topology.ClosureUtils
import Flecsi.Topology.TreeShape
import Flecsi.Topology.InsertDepth
import Flecsi.Topology.InsertRuns
import Flecsi.Topology.Connectivity
import Flecsi.Topology.Transpose
import Flecsi.Topology.IndexSpace
import Flecsi.Coloring.GhostConnectivity
import Flecsi.Lib.Interleave
import Flecsi.Execution.OwnerPositions
import Flecsi.Lib.SortedMerge
import Flecsi.Topology.Intersect
import Flecsi.Lib.Reorder
import Flecsi.Topology.BuildConnectivity
import Flecsi.Topology.ComputeConnectivity
import Flecsi.Topology.ComputeRuns
import Flecsi.Topology.ComputeAnswers
import Flecsi.Utils.Reorder
import Flecsi.Coloring.CrsRuns
import Flecsi.Lib.BitFields
import Flecsi.Utils.Hash
import Flecsi.Execution.SliceTask
import Flecsi.Lib.ArrayShift
import Flecsi.Utils.FixedVector
import Flecsi.Data.RowVector
import Flecsi.Data.RowSequences
import Flecsi.Data.RowRuns
import Flecsi.Lib.SortedArray
import Flecsi.Data.SparseAccess
import Flecsi.Data.SparseMaps
import Flecsi.Utils.VectorRef
import Flecsi.Execution.Reductions
import Flecsi.Execution.ReductionCalls
import Flecsi.Coloring.NaiveParts
import Flecsi.Utils.Id
import Flecsi.Topology.ConnectivityFill
import Flecsi.Topology.TreeEntities
import Flecsi.Coloring.ParmetisColorer
import Flecsi.Concurrency.PoolRuns
import Flecsi.Io.SimpleDefinition
import Flecsi.Lib.RequestReply
import Flecsi.Coloring.GetEntityInfo
import Flecsi.Lib.KeyedSet
import Flecsi.Lib.SetPositions
import Flecsi.Lib.ArrayLoops
import Flecsi.Coloring.MpiCommunicator
import Flecsi.Supplemental.Holdings
import Flecsi.Supplemental.CellColoring
import Flecsi.Supplemental.ColorEntity
import Flecsi.Lib.Mailbox
import Flecsi.Lib.StrideSlots
import Flecsi.Execution.OneSidedDense
import Flecsi.Execution.BuildsAgree
import Flecsi.Execution.OneSidedRows
import Flecsi.Execution.OneSidedRuns
import Flecsi.Lib.RecordStream
import Flecsi.Execution.Checkpoint
import Flecsi.Execution.Restart
import Flecsi.Topology.CanonicalTree
