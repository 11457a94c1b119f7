import Wizard.Runs
import Wizard.Places
import Wizard.Segment
import Wizard.Exclusion
import Wizard.SlotFutex
import Wizard.PowTwo
import Wizard.QueueIndex
import Wizard.BoundedQueue
import Wizard.TicketOrder
import Wizard.QueueFifo
import Wizard.VectorTable
import Wizard.VectorStable
import Wizard.Pool
import Wizard.PoolLinks
import Wizard.PoolPlaces
import Wizard.PoolTags
import Wizard.PoolThreads
import Wizard.PoolShared
import Wizard.PoolParts
import Wizard.PoolIsolation
import Wizard.PoolObjects
import Wizard.Hazptr
import Wizard.HazptrLists
import Wizard.HazptrOnce
import Wizard.HazptrRecords
import Wizard.HazptrSafe
import Wizard.HazptrOwners
import Wizard.HazptrCounts
import Wizard.HazptrExit
import Wizard.HazptrUsage
import Wizard.HazptrReuse
import Wizard.HashMap
import Wizard.HashMapChains
import Wizard.HashMapSections
import Wizard.HashMapSpec
import Wizard.HashMapTraversal
import Wizard.HashMapFind
import Wizard.Tally
import Wizard.HashMapLinks
import Wizard.HashMapLedger
import Wizard.HashMapReclaim
import Wizard.HashMapCounts
import Wizard.HashMapAlive
import Wizard.HashMapGuards
import Wizard.HashMapIterators
import Wizard.HashMapClears
import Wizard.HashMapReserve
import Wizard.HashMapShelves
import Wizard.HashMapOverlap
import Wizard.SkipList
import Wizard.SkipListLayers
import Wizard.SkipListSplice
import Wizard.SkipListSpec
import Wizard.RingBuffer
import Wizard.RingBufferDeque
import Wizard.FeatureTable
import Wizard.FeatureTableRows
import Wizard.CountedNode
import Wizard.NonlockFreeQueue
import Wizard.NonlockFreeQueueLinks
import Wizard.NonlockFreeQueueFifo
import Wizard.NonlockFreeQueueCounts
import Wizard.NonlockFreeQueueReclaim
import Wizard.RetireList
import Wizard.RetireListLinks
import Wizard.RetireListGrace
import Wizard.RetireListOnce
import Wizard.ThreadPool
import Wizard.ThreadPoolWakeups
import Wizard.ThreadPoolStop
import Wizard.SpscQueue
import Wizard.HazptrStack
import Wizard.SwmrList
import Wizard.SwmrListReaders
import Wizard.FeatureTableRemovals
import Wizard.FeatureTables
import Wizard.HashMapRefcount
import Wizard.LockFreeQueue
import Wizard.LockFreeQueueTail
import Wizard.Tickets
import Wizard.LockFreeQueuePops
import Wizard.LockFreeQueueSeen
import Wizard.LockFreeQueueShadow
import Wizard.LockFreeQueueFifo
import Wizard.LockFreeQueueHistory
import Wizard.FeatureTableFilter
import Wizard.RingBufferObjects
import Wizard.RingBufferLifetimes
import Wizard.TimerTask
import Wizard.TimerTaskArmed
import Wizard.TimerTaskAnonymous
import Wizard.VectorSnapshot
import Wizard.VectorSequential
import Wizard.VectorFill
import Wizard.VectorGrowth
import Wizard.VectorCells
import Wizard.HashMapCursor
import Wizard.BoundedQueueAlone
import Wizard.RingBufferCopies
import Wizard.LockFreeQueueAlone
import Wizard.PoolInit
import Wizard.StrictWeak
import Wizard.SkipListComp
import Wizard.SkipListHeights
import Wizard.TimerTaskRound
import Wizard.WindowBuffer
import Wizard.TimeWindow
import Wizard.FixedWindow
import Wizard.OffCycle
import Wizard.TopologicalSort
import Wizard.IndexSplit
import Wizard.RingBufferIndices
import Wizard.Ring
import Wizard.RouteTable
import Wizard.RouteRcu
import Wizard.RouteRcuLists
import Wizard.RouteRcuStores
import Wizard.RouteRcuSafe
import Wizard.Paced
import Wizard.RouteRcuLookup
import Wizard.SeqLock
import Wizard.RouteLinks
import Wizard.RouteSeqlock
import Wizard.RouteSeqlockSafe
import Wizard.RouteSeqlockLookup
import Wizard.RefCounts
import Wizard.RouteRefcnt
import Wizard.RouteRefcntRoles
import Wizard.RouteRefcntCounts
import Wizard.RouteRefcntList
import Wizard.RouteRefcntSafe
import Wizard.RouteRefcntLookup
import Wizard.Any
import Wizard.AnyValues
import Wizard.History
import Wizard.HazptrStackLifo
import Wizard.HashMapShards
import Wizard.HashMapShardsHistory
