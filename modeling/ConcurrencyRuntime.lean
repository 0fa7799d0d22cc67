import ConcurrencyRuntime.TransitionSystem
import ConcurrencyRuntime.IntrusiveStrand
import ConcurrencyRuntime.LinkedPath
import ConcurrencyRuntime.AtomicQueue
import ConcurrencyRuntime.SimpleMSQueue
import ConcurrencyRuntime.SimpleMSQueueInvariant
import ConcurrencyRuntime.SimpleMSQueueReclamation
import ConcurrencyRuntime.SimpleMSQueueRefinement
import ConcurrencyRuntime.IntrusiveList
import ConcurrencyRuntime.IntrusiveListFifo
import ConcurrencyRuntime.AsyncMutex
import ConcurrencyRuntime.WaitGroup
import ConcurrencyRuntime.SpinLock
import ConcurrencyRuntime.AsyncMutexCoro
import ConcurrencyRuntime.Event
import ConcurrencyRuntime.LinkedStacks
import ConcurrencyRuntime.HazardManager
import ConcurrencyRuntime.HazardMutators
import ConcurrencyRuntime.HazardCustody
import ConcurrencyRuntime.HazardSafety
import ConcurrencyRuntime.HazardPlaces
import ConcurrencyRuntime.HazardRegistry
import ConcurrencyRuntime.HazardCollectorLife
import ConcurrencyRuntime.HazardProtection
import ConcurrencyRuntime.HazardRetirement
import ConcurrencyRuntime.HazardDestructor
import ConcurrencyRuntime.QueueSpinLock
import ConcurrencyRuntime.QueueSpinLockFifo
import ConcurrencyRuntime.FiberSync
import ConcurrencyRuntime.FiberSyncPlaces
import ConcurrencyRuntime.FiberSyncRelease
import ConcurrencyRuntime.ConditionVariable
import ConcurrencyRuntime.BlockingQueue
import ConcurrencyRuntime.Tally
import ConcurrencyRuntime.IntrusivePool
import ConcurrencyRuntime.IntrusivePoolShutdown
import ConcurrencyRuntime.ExclusivePlaces
import ConcurrencyRuntime.PoolFibers
import ConcurrencyRuntime.PoolFibersPlaces
import ConcurrencyRuntime.PoolFibersShutdown
import ConcurrencyRuntime.DistributedPool
import ConcurrencyRuntime.DistributedTasks
import ConcurrencyRuntime.DistributedCount
import ConcurrencyRuntime.DistributedPoolControl
import ConcurrencyRuntime.DistributedPoolPlaces
import ConcurrencyRuntime.DistributedPoolShutdown
import ConcurrencyRuntime.DistributedPoolSignals
import ConcurrencyRuntime.DistributedPoolSleep
import ConcurrencyRuntime.DistributedPoolSemaphore
import ConcurrencyRuntime.DistributedPoolBookkeeping
import ConcurrencyRuntime.WordMemory
import ConcurrencyRuntime.ContextSwitch
import ConcurrencyRuntime.ByteMemory
import ConcurrencyRuntime.ContextEntry
import ConcurrencyRuntime.Coroutine
import ConcurrencyRuntime.BreadthFirst
import ConcurrencyRuntime.StrandTower
import ConcurrencyRuntime.ManualExecutor
import ConcurrencyRuntime.WaitIdle
import ConcurrencyRuntime.Census
import ConcurrencyRuntime.ClassicMSQueue
import ConcurrencyRuntime.ClassicMSQueueInvariant
import ConcurrencyRuntime.ClassicMSQueueCounters
import ConcurrencyRuntime.ClassicMSQueueRefinement
import ConcurrencyRuntime.ClassicMSQueueReclamation
import ConcurrencyRuntime.WaitGroupLifetime
import ConcurrencyRuntime.WaitGroupReturn
import ConcurrencyRuntime.ManualExecutorStepping
import ConcurrencyRuntime.EventWake
import ConcurrencyRuntime.HazardTrigger
import ConcurrencyRuntime.FiberSelf
import ConcurrencyRuntime.StepCount
import ConcurrencyRuntime.SimpleMSQueueProgress
import ConcurrencyRuntime.ClassicMSQueueProgress
import ConcurrencyRuntime.ClientRefinement
import ConcurrencyRuntime.MSQueueClients
import ConcurrencyRuntime.MutexWorkload
import ConcurrencyRuntime.FiberSections
import ConcurrencyRuntime.FiberSyncSections
import ConcurrencyRuntime.FiberSectionsWaiters
import ConcurrencyRuntime.FiberSectionsMutex
import ConcurrencyRuntime.FiberSectionsGroup
import ConcurrencyRuntime.FiberSectionsPool
