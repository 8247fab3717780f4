import Doost.Foundations.Monitor
import Doost.Pools.Downward

/-!
# The pool under a mutex, step by step

The member functions of `MutexDownwardPool` lock `mutex_` and call the member function of `pool_`.
Here the accesses of the latter to the pool are steps of their own (`mutexBody`), so that threads
interleave inside them as far as the mutex lets them. `mutex_pool_linearizable`: whatever they do,
they see a `DownwardPool` whose operations are made one after the other, each at some time between
its call and its return.
-/

namespace Doost.Pools

open Transition Monitors

/-- The member functions. -/
inductive MutexOp
  | allocate (bytes alignment : SizeT)
  | reset
  | release
  | usableBytes
  | usedBytes
  deriving DecidableEq, Repr

/-- What they return. -/
inductive MutexResult
  | address (a : UIntPtr)
  | size (n : SizeT)
  | void
  deriving DecidableEq, Repr

/-- Where a thread with the mutex is. -/
inductive MutexPlace
  | loadCursor (bytes alignment : SizeT)
  | storeCursor (cursor : UIntPtr)
  | returnCursor
  | loadMappingEnd
  | storeMappingEnd (mappingEnd : UIntPtr)
  | releaseStorage
  | clearCursor
  | readUsableBytes
  | loadUsedCursor
  | readUsedBytes (cursor : UIntPtr)
  deriving DecidableEq, Repr

/-- The pool, and the process whose mappings `release` changes. -/
abbrev MutexState := MutexDownwardPool × Process

/-- The bodies of the member functions. -/
def mutexBody (os : Os) : StepObject MutexState MutexOp MutexPlace MutexResult where
  enter
    | .allocate bytes alignment => .loadCursor bytes alignment
    | .reset => .loadMappingEnd
    | .release => .releaseStorage
    | .usableBytes => .readUsableBytes
    | .usedBytes => .loadUsedCursor
  step s
    | .loadCursor bytes alignment =>
      (s, .inl (.storeCursor (alignDownwardPoolCursor s.1.pool.cursor bytes alignment)))
    | .storeCursor cursor => ((⟨{ s.1.pool with cursor := cursor }⟩, s.2), .inl .returnCursor)
    | .returnCursor => (s, .inr (.address s.1.pool.cursor))
    | .loadMappingEnd => (s, .inl (.storeMappingEnd (downwardPoolMappingEnd s.1.pool.storage)))
    | .storeMappingEnd mappingEnd =>
      ((⟨{ s.1.pool with cursor := mappingEnd }⟩, s.2), .inr .void)
    | .releaseStorage =>
      let (storage, process) := releaseDownwardPoolStorage s.1.pool.storage s.2
      ((⟨{ s.1.pool with storage := storage }⟩, process), .inl .clearCursor)
    | .clearCursor => ((⟨{ s.1.pool with cursor := 0 }⟩, s.2), .inr .void)
    | .readUsableBytes => (s, .inr (.size (downwardPoolUsableBytes os s.1.pool.storage)))
    | .loadUsedCursor => (s, .inl (.readUsedBytes s.1.pool.cursor))
    | .readUsedBytes cursor => (s, .inr (.size (downwardPoolUsedBytes cursor s.1.pool.storage)))

/-- The member functions, with nobody else at the pool. -/
def mutexEffect (os : Os) (s : MutexState) : MutexOp → MutexState × MutexResult
  | .allocate bytes alignment =>
    let (address, pool) := s.1.allocate bytes alignment
    ((pool, s.2), .address address)
  | .reset => ((s.1.reset, s.2), .void)
  | .release => (s.1.release s.2, .void)
  | .usableBytes => (s, .size (s.1.usableBytes os))
  | .usedBytes => (s, .size s.1.usedBytes)

/-- The bodies compute the member functions. -/
theorem mutexBody_computes (os : Os) : (mutexBody os).Computes (mutexEffect os) := by
  intro s op
  cases op with
  | allocate bytes alignment => exact .more rfl (.more rfl (.done rfl))
  | reset => exact .more rfl (.done rfl)
  | release => exact .more rfl (.done rfl)
  | usableBytes => exact .done rfl
  | usedBytes => exact .more rfl (.done rfl)

/-- **A `MutexDownwardPool` is a `DownwardPool` used by one thread at a time.** In every run of any
number of threads that call its member functions in any order, however their steps interleave: no
two of them are in a body at once; and there is a run in which every member function takes effect
in one step between its call and its return, with the same calls and the same returned values in
the same order. Its effects, one after the other, are a sequential history of the pool, which
agrees with the shared pool whenever the mutex is free. -/
theorem mutex_pool_linearizable {os : Os} {s : MutexState}
    {ls : List (Move MutexOp MutexResult)} {m : Monitor MutexState MutexOp MutexPlace MutexResult}
    (hrun : run (Monitor.next (mutexBody os)) (Monitor.start s) ls = some m) :
    (∀ t u, (m.threads t).Holds → (m.threads u).Holds → t = u) ∧
    ∃ ms a, run (Atomic.next (mutexEffect os)) (Atomic.start s) ms = some a ∧
      ms.filterMap AtomicMove.event = ls.filterMap Move.event ∧
      Atomic.Replays (mutexEffect os) s a.log a.shared ∧
      (m.holder = none → m.shared = a.shared) := by
  obtain ⟨ms, a, hms, hevents, hsim⟩ := Monitor.linearizable (mutexBody_computes os) hrun
  exact ⟨fun t u => hsim.exclusive, ms, a, hms, hevents, Atomic.replays hms,
    fun hfree => (hsim.free hfree).symm⟩

/-- Two threads allocate. The one that called second gets the mutex first. -/
def twoAllocations : List (Move MutexOp MutexResult) :=
  [.call 0 (.allocate 16 8), .call 1 (.allocate 32 16), .lock 1, .step 1, .step 1, .step 1,
    .unlock 1, .lock 0, .step 0, .ret 1 (.address 0x11FE0), .step 0, .step 0, .unlock 0,
    .ret 0 (.address 0x11FD0)]

theorem mutex_pool_linearizable_twoAllocations :
    ∃ m, run (Monitor.next (mutexBody Os.fixed))
        (Monitor.start (⟨⟨⟨0x10000, 0x2000⟩, 0x12000⟩⟩, ⟨[], none, []⟩)) twoAllocations = some m ∧
      m.holder = none ∧ m.shared.1.pool.cursor = 0x11FD0 ∧
      ∃ ms a, run (Atomic.next (mutexEffect Os.fixed))
          (Atomic.start (⟨⟨⟨0x10000, 0x2000⟩, 0x12000⟩⟩, ⟨[], none, []⟩)) ms = some a ∧
        m.shared = a.shared := by
  have hfacts : (run (Monitor.next (mutexBody Os.fixed))
      (Monitor.start (⟨⟨⟨0x10000, 0x2000⟩, 0x12000⟩⟩, ⟨[], none, []⟩)) twoAllocations).map
        (fun m => (m.holder, m.shared.1.pool.cursor)) = some (none, 0x11FD0) := by
    decide +kernel
  obtain ⟨m, hm, hfacts⟩ := Option.map_eq_some_iff.mp hfacts
  obtain ⟨hholder, hcursor⟩ := Prod.mk.inj hfacts
  obtain ⟨-, ms, a, hms, -, -, hsame⟩ := mutex_pool_linearizable hm
  exact ⟨m, hm, hholder, hcursor, ms, a, hms, hsame hholder⟩

end Doost.Pools
