import SapCore.AlignUp
import SapCore.Alignment
import SapCore.AllocatorAdapters
import SapCore.Arena
import SapCore.ArenaRuns
import SapCore.ByteOrder
import SapCore.CoroutineFrames
import SapCore.CoroutineIo
import SapCore.CoroutineRefinement
import SapCore.CoroutineRuntime
import SapCore.CoroutineSteps
import SapCore.CoroutineSystem
import SapCore.CoroutineWaiting
import SapCore.EpollReactor
import SapCore.Executor
import SapCore.ExecutorAccounting
import SapCore.ExecutorEpoll
import SapCore.ExecutorInvariant
import SapCore.ExecutorLoop
import SapCore.ExecutorQueue
import SapCore.ExecutorReactor
import SapCore.ExecutorReawait
import SapCore.ExecutorRemembered
import SapCore.ExecutorStop
import SapCore.ExecutorWaiting
import SapCore.FixedBlockPool
import SapCore.FixedBlockPoolRuns
import SapCore.FixedBlockPoolShape
import SapCore.FixedString
import SapCore.FixedStringRefinement
import SapCore.FixedStringSelf
import SapCore.Generational
import SapCore.GenerationalLive
import SapCore.GenerationalStale
import SapCore.GenerationalVector
import SapCore.GenerationalVectorStale
import SapCore.GenerationalVectorStore
import SapCore.History
import SapCore.IntrusiveList
import SapCore.IocpArmed
import SapCore.IocpDrain
import SapCore.IocpLifetime
import SapCore.IocpLifetimeSafety
import SapCore.IocpReactor
import SapCore.IocpRegistration
import SapCore.JobSystem
import SapCore.JobSystemCompletion
import SapCore.JobSystemDispatch
import SapCore.JobSystemExactlyOnce
import SapCore.JobSystemHandover
import SapCore.JobSystemIdle
import SapCore.JobSystemLedger
import SapCore.JobSystemMemory
import SapCore.JobSystemMemoryQueues
import SapCore.JobSystemMoves
import SapCore.JobSystemOneSubmitter
import SapCore.JobSystemProgress
import SapCore.JobSystemQueues
import SapCore.JobSystemRoundRobin
import SapCore.JobSystemSchedules
import SapCore.JobSystemSingleThread
import SapCore.JobSystemSubmitters
import SapCore.JobSystemWaitIdle
import SapCore.Machine
import SapCore.Memory
import SapCore.MonotonicClock
import SapCore.NetworkOrder
import SapCore.PoolAllocator
import SapCore.PoolAllocatorAlignment
import SapCore.PoolAllocatorClients
import SapCore.PoolAllocatorLaws
import SapCore.Reactor
import SapCore.ReleaseAcquire
import SapCore.Result
import SapCore.ResultLifetime
import SapCore.RingBuffer
import SapCore.Serialization
import SapCore.SerializationBounds
import SapCore.SerializationCodec
import SapCore.SerializationRoundTrip
import SapCore.SignedWord
import SapCore.SleepFor
import SapCore.SpawnHandle
import SapCore.SpawnHandleLifetime
import SapCore.SpawnSyncWait
import SapCore.SpscQueue
import SapCore.SpscQueueMemory
import SapCore.SpscQueueRuns
import SapCore.StopCallbacks
import SapCore.StopState
import SapCore.TaskMachine
import SapCore.TaskOperations
import SapCore.TaskOperationsSafety
import SapCore.TaskProgram
import SapCore.TaskSimulation
import SapCore.Threads
import SapCore.Timer
import SapCore.TimerRuns
import SapCore.TimerWorkers
import SapCore.WaitTimeout
