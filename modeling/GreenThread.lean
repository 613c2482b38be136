import GreenThread.Library.System
import GreenThread.Library.Ownership
import GreenThread.Library.Counting
import GreenThread.Library.Clock
import GreenThread.Library.Serial
import GreenThread.Library.RefCount
import GreenThread.Library.Reclaim
import GreenThread.Mutex.Code
import GreenThread.Machine.Step
import GreenThread.Machine.Invariant
import GreenThread.Machine.Moves
import GreenThread.Machine.Discipline
import GreenThread.Machine.Progress
import GreenThread.Machine.Guarded
import GreenThread.Machine.Serial
import GreenThread.Mutex.Protocol
import GreenThread.Mutex.Classes
import GreenThread.Mutex.Spinlock
import GreenThread.Mutex.Threads
import GreenThread.Mutex.Timeout
import GreenThread.Mutex.Deadline
import GreenThread.Mutex.Interruption
import GreenThread.Mutex.Ledger
import GreenThread.Mutex.Level
import GreenThread.Condition.Protocol
import GreenThread.Condition.Queues
import GreenThread.Condition.Timeout
import GreenThread.Condition.Deadline
import GreenThread.Condition.Interruption
import GreenThread.Condition.Any
import GreenThread.Condition.PredicateWait
import GreenThread.Future.Code
import GreenThread.Future.Steps
import GreenThread.Future.Continuations
import GreenThread.Future.Wakes
import GreenThread.Future.Promise
import GreenThread.Future.Foreign
import GreenThread.Future.Then
import GreenThread.Future.Callbacks
import GreenThread.Future.WaitForAll
import GreenThread.Future.Frame
import GreenThread.Future.AsyncAny
import GreenThread.Future.AsyncAll
import GreenThread.Future.OneByOne
import GreenThread.Future.WaitAny
import GreenThread.Future.PackagedTask
import GreenThread.Future.AtThreadExit
import GreenThread.Future.Service
import GreenThread.Future.Serving
import GreenThread.Future.Served
import GreenThread.Future.AsyncExecutor
import GreenThread.Future.AsyncFunction
import GreenThread.SharedMutex.Code
import GreenThread.SharedMutex.Threads
import GreenThread.SharedMutex.Sections
import GreenThread.SharedMutex.Protocol
import GreenThread.SharedMutex.Waiters
import GreenThread.SharedMutex.Stranded
import GreenThread.SharedMutex.Conversions
import GreenThread.Queue.Code
import GreenThread.Queue.Statements
import GreenThread.Queue.Conservation
import GreenThread.Queue.Waiters
import GreenThread.Queue.Operations
import GreenThread.Queue.Capacity
import GreenThread.Queue.Timed
import GreenThread.Queue.Atomic
import GreenThread.Queue.Linear
import GreenThread.Barrier.Code
import GreenThread.Barrier.Generations
import GreenThread.Barrier.Throwing
import GreenThread.Scheduler.Strand
import GreenThread.Scheduler.Activation
import GreenThread.Scheduler.Exits
import GreenThread.Scheduler.Pool
import GreenThread.Asio.Code
import GreenThread.Asio.Yield
import GreenThread.Thread.Sleep
import GreenThread.Thread.Tss
import GreenThread.Thread.NullCleanup
import GreenThread.Thread.InterruptionPoints
import GreenThread.Thread.InterruptionScopes
import GreenThread.Thread.Join
import GreenThread.Thread.Cleanup
import GreenThread.Streambuf.Code
import GreenThread.Streambuf.Output
import GreenThread.Streambuf.HalfDuplex
import GreenThread.Streambuf.PutBack
import GreenThread.Future.Handles
import GreenThread.Future.Lifetime
