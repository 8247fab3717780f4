import Doost.Foundations.AlignedWord
import Doost.Foundations.Transition
import Doost.Foundations.Potential
import Doost.Foundations.Monitor
import Doost.Foundations.Neighbours
import Doost.Foundations.SharedValues
import Doost.Foundations.ValueLedger
import Doost.Foundations.Program
import Doost.Foundations.Sequences
import Doost.Foundations.SplitCopy
import Doost.Foundations.SoleOwners
import Doost.Foundations.Seats
import Doost.Foundations.AdjacentSort
import Doost.Foundations.PrefixCodes
import Doost.Foundations.Decimal
import Doost.Foundations.Scopes
import Doost.Foundations.Strtoull
import Doost.Pools.Storage
import Doost.Pools.Downward
import Doost.Pools.MutexPool
import Doost.Pools.Nonblocking
import Doost.Pools.NonblockingGuard
import Doost.Pools.Comparison
import Doost.Pools.GuardRegistry
import Doost.Pools.Registrations
import Doost.Pools.ConcurrentSearch
import Doost.Pools.SlotOwners
import Doost.Pools.Objects
import Doost.Pools.Capacity
import Doost.Pools.Allocators
import Doost.Lists.NodeStorage
import Doost.Lists.NodeHeap
import Doost.Lists.Chains
import Doost.Lists.NodeSpecs
import Doost.Lists.HelperSpecs
import Doost.Lists.Operations
import Doost.Lists.CallSpecs
import Doost.Lists.Preservation
import Doost.Lists.Outcomes
import Doost.Lists.Refinement
import Doost.Lists.Ledger
import Doost.Lists.ExceptionSafety
import Doost.Lists.Iterators
import Doost.Lists.PoolLists
import Doost.Lists.SharedPool
import Doost.Strings.Heap
import Doost.Strings.Ownership
import Doost.Strings.Renaming
import Doost.Strings.OwnerChains
import Doost.Strings.Operations
import Doost.Strings.OperationSpecs
import Doost.Strings.SharedText
import Doost.Strings.Invariant
import Doost.Strings.Refinement
import Doost.Strings.Observers
import Doost.Strings.RoundTrip
import Doost.Strings.Swapping
import Doost.Strings.Comparison
import Doost.Strings.Printing
import Doost.Strings.Sorting
import Doost.Strings.Releases
import Doost.Strings.TextAssignment
import Doost.Strings.Benchmark
import Doost.Memcpy.Shared
import Doost.Memcpy.Worker
import Doost.Memcpy.Copy
import Doost.Memcpy.Lifetime
import Doost.Memcpy.Stages
import Doost.Memcpy.Handshake
import Doost.Memcpy.Invariant
import Doost.Memcpy.ParallelCopy
import Doost.Memcpy.WakeUps
import Doost.Memcpy.Executions
import Doost.Memcpy.WorkBound
import Doost.Memcpy.Returns
import Doost.Memcpy.ConcurrentCallers
import Doost.Signals.Process
import Doost.Signals.Handlers
import Doost.Signals.SafeRead
import Doost.Signals.OverflowHandler
import Doost.Signals.OverflowReport
import Doost.Benchmarks.Arguments
import Doost.Benchmarks.MinSize
import Doost.Benchmarks.RunThreads
import Doost.Benchmarks.ThreadLocalPools
import Doost.Benchmarks.GlobalNonblockingPool
import Doost.Benchmarks.StandardAllocator
