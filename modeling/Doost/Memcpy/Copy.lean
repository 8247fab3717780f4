import Doost.Memcpy.Shared

/-!
# The caller inside `copy`

`ParallelMemcpyPool::copy`, one load, store, wait or notification, one assignment to a field of a
worker's state, or one byte of its own `memcpy` in each step (`Copy.copy`).

Sizes and addresses are natural numbers: `offset` never passes `size`, so that no sum of `copy`
leaves the range of `std::size_t`. The generation is a 64-bit counter and wraps around.
-/

namespace Doost.Memcpy

/-- The arguments and the locals of `copy`. -/
structure Frame where
  dst : Address
  src : Address
  size : ℕ
  workerCount : ℕ
  workerSize : ℕ
  offset : ℕ

/-- Where a caller stands in `copy`. -/
inductive CopyPc
  | enter
  /-- In `std::memcpy(dst, src, size)`, with `copied` bytes done. -/
  | copySelf (copied : ℕ)
  | writeDst (index : ℕ)
  | writeSrc (index : ℕ)
  | writeSize (index : ℕ)
  | loadGeneration
  | storeGeneration (generation : Generation)
  | notifyStart (generation : Generation)
  /-- At the head of the loop over the workers, before `completed_generation.load()`. -/
  | loadCompleted (generation : Generation) (index : ℕ)
  /-- In `completed_generation.wait(completed)` of worker `index`. -/
  | waitCompleted (generation : Generation) (index : ℕ) (completed : Generation)
  | returning (value : Address)

/-- A call of `copy`. -/
structure Copy where
  frame : Frame
  pc : CopyPc

namespace Copy

/-- The call `copy(dst, src, size)` at its first step. -/
def call (dst src : Address) (size : ℕ) : Copy :=
  ⟨⟨dst, src, size, 0, 0, 0⟩, .enter⟩

/-- What the next step of the call touches is there. -/
def defined (s : Shared) (c : Copy) : Bool :=
  match c.pc with
  | .enter => c.frame.size == 0 || s.implAlive
  | .copySelf _ => true
  | .writeDst index => s.stateAlive index
  | .writeSrc index => s.stateAlive index
  | .writeSize index => s.stateAlive index
  | .loadGeneration => s.implAlive
  | .storeGeneration _ => s.implAlive
  | .notifyStart _ => s.implAlive
  | .loadCompleted _ index => index == c.frame.workerCount || s.stateAlive index
  | .waitCompleted _ index _ => s.stateAlive index
  | .returning _ => true

/-- The next step of the call that the thread `me` makes. -/
def copy (me : Thread) (s : Shared) (c : Copy) : Option (Shared × Copy) :=
  let f := c.frame
  match c.pc with
  | .enter =>
    if f.size = 0 then some (s, ⟨f, .returning f.dst⟩)
    else if s.workerCount = 0 then some (s, ⟨f, .copySelf 0⟩)
    else some (s, ⟨{ f with
      workerCount := s.workerCount, workerSize := f.size / s.workerCount, offset := 0 },
      .writeDst 0⟩)
  | .copySelf copied =>
    if copied < f.size then
      some (s.writeByte me (f.dst + copied) (s.memory (f.src + copied)),
        ⟨f, .copySelf (copied + 1)⟩)
    else some (s, ⟨f, .returning f.dst⟩)
  | .writeDst index =>
    some (s.setState index fun state => { state with dst := f.dst + f.offset },
      ⟨f, .writeSrc index⟩)
  | .writeSrc index =>
    some (s.setState index fun state => { state with src := f.src + f.offset },
      ⟨f, .writeSize index⟩)
  | .writeSize index =>
    -- the last worker takes what is left, after the loop
    if index = f.workerCount - 1 then
      some (s.setState index fun state => { state with size := f.size - f.offset },
        ⟨f, .loadGeneration⟩)
    else
      some (s.setState index fun state => { state with size := f.workerSize },
        ⟨{ f with offset := f.offset + f.workerSize }, .writeDst (index + 1)⟩)
  | .loadGeneration => some (s, ⟨f, .storeGeneration (s.startGeneration + 1)⟩)
  | .storeGeneration generation =>
    some ({ s with startGeneration := generation }, ⟨f, .notifyStart generation⟩)
  | .notifyStart generation => some (s.notifyAllStart, ⟨f, .loadCompleted generation 0⟩)
  | .loadCompleted generation index =>
    if index = f.workerCount then some (s, ⟨f, .returning f.dst⟩)
    else if (s.workerStates index).completedGeneration = generation then
      some (s, ⟨f, .loadCompleted generation (index + 1)⟩)
    else some (s, ⟨f, .waitCompleted generation index (s.workerStates index).completedGeneration⟩)
  | .waitCompleted generation index completed =>
    if me ∈ s.queues.completed index then none
    else if (s.workerStates index).completedGeneration = completed then
      some (s.sleepOnCompleted index me, ⟨f, .waitCompleted generation index completed⟩)
    else some (s, ⟨f, .loadCompleted generation index⟩)
  | .returning _ => none

/-- The next step of the call, undefined if it touches what is no longer there. -/
def step (me : Thread) (s : Shared) (c : Copy) : Option (Shared × Copy) :=
  copy me (s.check (c.defined s)) c

/-- The call is writing the jobs of the workers: from its first assignment to a worker's state
until it announces the new generation. -/
def WritesJobs (c : Copy) : Prop :=
  match c.pc with
  | .writeDst _ | .writeSrc _ | .writeSize _ | .loadGeneration | .storeGeneration _ => True
  | _ => False

/-- The value that the call returns, once it does. -/
def returned (c : Copy) : Option Address :=
  match c.pc with
  | .returning value => some value
  | _ => none

theorem step_eq_copy {me : Thread} {s : Shared} {c : Copy} (h : c.defined s = true) :
    c.step me s = c.copy me s := by
  rw [step, h, Shared.check_true]

end Copy

end Doost.Memcpy
