import Mathlib.Data.List.Basic
import Mathlib.Data.BitVec
import Mathlib.Logic.Function.Basic

/-!
# What the threads of a memcpy pool share

The fields of `ParallelMemcpyPool::Impl` and the memory its copies work on. Every access of a
thread to one of them is one step of the system (`Memcpy/Worker.lean`, `Memcpy/Copy.lean`), so the
operations here are single loads, stores, notifications and byte writes.

An atomic `wait` blocks a thread: the thread stands in the queue of the atomic, and is not enabled
until a notification (or a spurious wake-up) takes it out; it then compares the value again.
-/

namespace Doost.Memcpy

/-- The threads: callers of `copy`, and the workers of the pool. -/
inductive Thread
  | caller (c : ℕ)
  | worker (index : ℕ)
  deriving DecidableEq

/-- `start_generation` and `completed_generation` are `std::size_t` counters. -/
abbrev Generation := BitVec 64

abbrev Byte := BitVec 8

/-- Addresses of bytes. -/
abbrev Address := ℕ

/-- `Impl::WorkerState`: the job of one worker, and the last generation it has completed. -/
structure WorkerState where
  dst : Address
  src : Address
  size : ℕ
  completedGeneration : Generation

/-- The threads that are blocked in `wait`, for each atomic of the pool. -/
structure Queues where
  start : List Thread
  completed : ℕ → List Thread

/-- The pool `*impl_` and the memory of the process.

`stateCount` is the length of the array behind `worker_states` (`0` when it is null), `threads` the
length of the vector `workers`, and `deleted` says that `impl_` has been deleted. A step that
touches what is not there sets `undefined`. `writes` logs the byte writes of the pool, the newest
first. -/
structure Shared where
  workerCount : ℕ
  workerStates : ℕ → WorkerState
  stateCount : ℕ
  threads : ℕ
  startGeneration : Generation
  stopping : Bool
  queues : Queues
  deleted : Bool
  undefined : Bool
  memory : Address → Byte
  writes : List (Thread × Address)

namespace Shared

variable (s : Shared)

/-- `new Impl`. -/
def new (memory : Address → Byte) : Shared where
  workerCount := 0
  workerStates _ := ⟨0, 0, 0, 0⟩
  stateCount := 0
  threads := 0
  startGeneration := 0
  stopping := false
  queues := ⟨[], fun _ => []⟩
  deleted := false
  undefined := false
  memory := memory
  writes := []

/-- A step that is only defined if `ok` holds. -/
def check (ok : Bool) : Shared :=
  { s with undefined := s.undefined || !ok }

/-- `*impl_` is there. -/
def implAlive : Bool :=
  !s.deleted

/-- `impl_->worker_states[index]` is there. -/
def stateAlive (index : ℕ) : Bool :=
  !s.deleted && decide (index < s.stateCount)

/-- An assignment to a field of `worker_states[index]`. -/
def setState (index : ℕ) (f : WorkerState → WorkerState) : Shared :=
  { s with workerStates := Function.update s.workerStates index (f (s.workerStates index)) }

/-- One byte of a `std::memcpy` of the thread `t`. -/
def writeByte (t : Thread) (dst : Address) (byte : Byte) : Shared :=
  { s with memory := Function.update s.memory dst byte, writes := (t, dst) :: s.writes }

/-! ## Blocking and waking -/

/-- The thread `t` goes to sleep in `start_generation.wait`. -/
def sleepOnStart (t : Thread) : Shared :=
  { s with queues := { s.queues with start := s.queues.start ++ [t] } }

/-- The thread `t` goes to sleep in `worker_states[index].completed_generation.wait`. -/
def sleepOnCompleted (index : ℕ) (t : Thread) : Shared :=
  { s with queues := { s.queues with
      completed := Function.update s.queues.completed index (s.queues.completed index ++ [t]) } }

/-- `start_generation.notify_all()`. -/
def notifyAllStart : Shared :=
  { s with queues := { s.queues with start := [] } }

/-- `worker_states[index].completed_generation.notify_one()`. -/
def notifyOneCompleted (index : ℕ) : Shared :=
  { s with queues := { s.queues with
      completed := Function.update s.queues.completed index (s.queues.completed index).tail } }

/-- The thread `t` leaves every queue, as on a spurious wake-up. -/
def wake (t : Thread) : Shared :=
  { s with queues :=
    { start := s.queues.start.filter (· ≠ t)
      completed := fun index => (s.queues.completed index).filter (· ≠ t) } }

/-! ## What the steps leave alone -/

variable {s}

theorem check_true : s.check true = s := by
  simp [check]

theorem setState_self (index : ℕ) (f : WorkerState → WorkerState) :
    (s.setState index f).workerStates index = f (s.workerStates index) :=
  Function.update_self ..

theorem setState_of_ne {index i : ℕ} (h : i ≠ index) (f : WorkerState → WorkerState) :
    (s.setState index f).workerStates i = s.workerStates i :=
  Function.update_of_ne h ..

/-- Both differ at most in who is blocked. -/
def SameButQueues (s s' : Shared) : Prop :=
  ∃ queues, s' = { s with queues := queues }

theorem SameButQueues.refl : s.SameButQueues s := ⟨s.queues, rfl⟩

theorem SameButQueues.sleepOnStart (t : Thread) : s.SameButQueues (s.sleepOnStart t) := ⟨_, rfl⟩

theorem SameButQueues.sleepOnCompleted (index : ℕ) (t : Thread) :
    s.SameButQueues (s.sleepOnCompleted index t) := ⟨_, rfl⟩

theorem SameButQueues.notifyAllStart : s.SameButQueues s.notifyAllStart := ⟨_, rfl⟩

theorem SameButQueues.notifyOneCompleted (index : ℕ) :
    s.SameButQueues (s.notifyOneCompleted index) := ⟨_, rfl⟩

theorem SameButQueues.wake (t : Thread) : s.SameButQueues (s.wake t) := ⟨_, rfl⟩

end Shared

end Doost.Memcpy
