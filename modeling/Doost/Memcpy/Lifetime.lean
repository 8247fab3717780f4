import Doost.Foundations.Transition
import Doost.Memcpy.Copy
import Doost.Memcpy.Worker

/-!
# The pool, from its constructor to its destructor

One thread owns a `ParallelMemcpyPool`: it constructs the pool (`start_workers`), calls `copy` any
number of times, and destroys the pool (`stop_workers`). The system interleaves its steps with the
steps of the workers (`next`); the labels of a run say who moves, what the owner does between two
operations, and where a step of the constructor throws.
-/

namespace Doost.Memcpy

/-- Where a thread stands in `start_workers`. -/
inductive StartPc
  | setWorkerCount
  | allocateStates
  | reserveThreads
  /-- At the head of the loop that creates the threads. -/
  | createThread (index : ℕ)

/-- Where a thread stands in `stop_workers` and the `delete impl_` after it. -/
inductive StopPc
  | storeStopping
  | bumpGeneration
  | notifyStart
  /-- In the loop over the threads of `workers`. -/
  | join (index : ℕ)
  | clearThreads
  | resetStates
  | clearWorkerCount
  | clearStopping
  | deleteImpl

/-- Where the owner stands. `threadCount` is the argument of the constructor, and `thrown` says
whether the pool is stopped because the constructor caught an exception. -/
inductive Owner
  | starting (threadCount : ℕ) (pc : StartPc)
  /-- Between two operations of a constructed pool. -/
  | idle
  | copying (c : Copy)
  | stopping (thrown : Bool) (pc : StopPc)
  /-- The destructor has returned, or the constructor has thrown. -/
  | gone (thrown : Bool)

/-- The owner, the workers, and what they share. -/
structure System where
  shared : Shared
  owner : Owner
  workers : ℕ → Worker

/-- Who moves. -/
inductive Label
  /-- The next step of worker `index`. -/
  | worker (index : ℕ)
  /-- The next step of the owner. -/
  | owner
  /-- The next step of the owner throws: an allocation, or the creation of a thread. -/
  | throws
  /-- The owner calls `copy(dst, src, size)`. -/
  | copy (dst src : Address) (size : ℕ)
  /-- The owner destroys the pool. -/
  | destroy
  /-- The owner writes a byte of its own between two operations. -/
  | client (address : Address) (byte : Byte)
  /-- A spurious wake-up. -/
  | wake (t : Thread)

/-- The buffers of a call do not overlap. -/
def Separate (dst src size : ℕ) : Prop :=
  dst + size ≤ src ∨ src + size ≤ dst

instance (dst src size : ℕ) : Decidable (Separate dst src size) :=
  inferInstanceAs (Decidable (_ ∨ _))

namespace System

/-- A pool about to be constructed with `threadCount` workers. -/
def start (threadCount : ℕ) (memory : Address → Byte) : System :=
  ⟨Shared.new memory, .starting threadCount .setWorkerCount, fun _ => .absent⟩

/-- The next step of `start_workers`. -/
def startWorkers (s : System) (threadCount : ℕ) : StartPc → Option System
  | .setWorkerCount => some { s with
      shared := { s.shared with workerCount := threadCount }
      owner := .starting threadCount .allocateStates }
  | .allocateStates => some { s with
      shared := { s.shared with
        workerStates := fun _ => ⟨0, 0, 0, 0⟩, stateCount := threadCount }
      owner := .starting threadCount .reserveThreads }
  | .reserveThreads => some { s with owner := .starting threadCount (.createThread 0) }
  | .createThread index =>
    if index = threadCount then some { s with owner := .idle }
    else some {
      shared := { s.shared with threads := s.shared.threads + 1 }
      owner := .starting threadCount (.createThread (index + 1))
      workers := Function.update s.workers index .enter }

/-- The next step of `stop_workers` and of the `delete impl_` after it. -/
def stopWorkers (s : System) (thrown : Bool) : StopPc → Option System
  | .storeStopping => some { s with
      shared := { s.shared with stopping := true }, owner := .stopping thrown .bumpGeneration }
  | .bumpGeneration => some { s with
      shared := { s.shared with startGeneration := s.shared.startGeneration + 1 }
      owner := .stopping thrown .notifyStart }
  | .notifyStart => some { s with
      shared := s.shared.notifyAllStart, owner := .stopping thrown (.join 0) }
  | .join index =>
    if index = s.shared.threads then some { s with owner := .stopping thrown .clearThreads }
    else match s.workers index with
      | .exited => some { s with owner := .stopping thrown (.join (index + 1)) }
      | _ => none
  | .clearThreads => some { s with
      shared := { s.shared with threads := 0 }, owner := .stopping thrown .resetStates }
  | .resetStates => some { s with
      shared := { s.shared with stateCount := 0 }, owner := .stopping thrown .clearWorkerCount }
  | .clearWorkerCount => some { s with
      shared := { s.shared with workerCount := 0 }, owner := .stopping thrown .clearStopping }
  | .clearStopping => some { s with
      shared := { s.shared with stopping := false }, owner := .stopping thrown .deleteImpl }
  | .deleteImpl => some { s with
      shared := { s.shared with deleted := true }, owner := .gone thrown }

/-- The next step of the owner. -/
def ownerStep (s : System) : Option System :=
  match s.owner with
  | .starting threadCount pc => s.startWorkers threadCount pc
  | .idle => none
  | .copying c =>
    match c.pc with
    | .returning _ => some { s with owner := .idle }
    | _ => (c.step (.caller 0) s.shared).map fun r =>
      { s with shared := r.1, owner := .copying r.2 }
  | .stopping thrown pc => s.stopWorkers thrown pc
  | .gone _ => none

/-- The next step of the owner throws. -/
def throwStep (s : System) : Option System :=
  match s.owner with
  | .starting _ .allocateStates | .starting _ .reserveThreads =>
    some { s with owner := .stopping true .storeStopping }
  | .starting threadCount (.createThread index) =>
    if index = threadCount then none
    else some { s with owner := .stopping true .storeStopping }
  | _ => none

/-- The next step of worker `index`. -/
def workerStep (s : System) (index : ℕ) : Option System :=
  ((s.workers index).step index s.shared).map fun r =>
    { s with shared := r.1, workers := Function.update s.workers index r.2 }

/-- What the owner starts between two operations. -/
def between (s : System) (f : System → System) : Option System :=
  match s.owner with
  | .idle => some (f s)
  | _ => none

/-- One step of the system. A call with overlapping buffers is not a call of `memcpy`, and the
owner does not make one. -/
def next (s : System) : Label → Option System
  | .worker index => s.workerStep index
  | .owner => s.ownerStep
  | .throws => s.throwStep
  | .copy dst src size =>
    if Separate dst src size then
      s.between fun s => { s with owner := .copying (.call dst src size) }
    else none
  | .destroy => s.between fun s => { s with owner := .stopping false .storeStopping }
  | .client address byte => s.between fun s => { s with
      shared := { s.shared with memory := Function.update s.shared.memory address byte } }
  | .wake t => some { s with shared := s.shared.wake t }

/-- The owner is writing the jobs of the workers. -/
def WritesJobs (s : System) : Prop :=
  match s.owner with
  | .copying c => c.WritesJobs
  | _ => False

/-- The value that the current call returns, once it does. -/
def returned (s : System) : Option Address :=
  match s.owner with
  | .copying c => c.returned
  | _ => none

end System

end Doost.Memcpy
