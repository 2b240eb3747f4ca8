import Immix.Lib.Run
import Immix.Lib.Count
import Immix.Lib.Closure
import Immix.Lib.Search
import Immix.Lib.Lock
import Immix.Lib.Potential
import Immix.Common
import Immix.LineMark
import Immix.SideTables
import Immix.Space
import Immix.TraceReach
import Immix.TracePanic
import Immix.RootMono
import Immix.CScalars
import Immix.CAlloc
import Immix.CTrace
import Immix.PublicCalls
import Immix.FreshMemory
import Immix.Soundness
import Immix.SweepLoop
import Immix.Barrier
import Immix.BarrierLocks
import Immix.Handshake
import Immix.BarrierBlocks
import Immix.StopTheWorld
import Immix.SweepAccount
import Immix.Passage
import Immix.RootSpaces
import Immix.TableBounds
import Immix.NewSpace
import Immix.HoleSearch
import Immix.AllocBounds
import Immix.LineCover
import Immix.Registry
import Immix.CFreeList
import Immix.SafeMap
import Immix.CBlocks
import Immix.CGeometry
import Immix.CTraceBounds
import Immix.TraceWork
import Immix.Lib.Fair
import Immix.TraceFair
import Immix.GcExclusion
import Immix.BarrierFair
import Immix.AtomicCollect
import Immix.HeapStore
import Immix.Servable
import Immix.Retired
import Immix.CProgram
