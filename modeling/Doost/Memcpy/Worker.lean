import Doost.Memcpy.Shared

/-!
# The worker thread

`ParallelMemcpyPool::worker_loop`, one atomic load, store, wait or notification, one read of a
field of the worker's state, or one byte of its `memcpy` in each step (`Worker.workerLoop`).
-/

namespace Doost.Memcpy

/-- Where worker `index` stands in `worker_loop`, with the locals it still uses: `observed` is
`observed_generation`, and `generation` a value just loaded from `start_generation`. -/
inductive Worker
  /-- The thread has not been created. -/
  | absent
  | enter
  | loadGeneration (observed : Generation)
  /-- In the inner loop, before `stopping.load()`. -/
  | checkStopping (observed : Generation)
  /-- In `start_generation.wait(observed)`. -/
  | waitStart (observed : Generation)
  /-- After `observed_generation = generation`, before the second `stopping.load()`. -/
  | checkStoppingAgain (generation : Generation)
  | readDst (generation : Generation)
  | readSrc (generation : Generation) (dst : Address)
  | readSize (generation : Generation) (dst src : Address)
  /-- In `std::memcpy(dst, src, size)`, with `copied` bytes done. -/
  | copyBytes (generation : Generation) (dst src : Address) (size copied : ℕ)
  | storeCompleted (generation : Generation)
  | notifyCaller (generation : Generation)
  /-- `worker_loop` has returned. -/
  | exited

namespace Worker

/-- What the next step of worker `index` touches is there. -/
def defined (index : ℕ) (s : Shared) : Worker → Bool
  | enter => s.stateAlive index
  | loadGeneration _ => s.implAlive
  | checkStopping _ => s.implAlive
  | waitStart _ => s.implAlive
  | checkStoppingAgain _ => s.implAlive
  | readDst _ => s.stateAlive index
  | readSrc _ _ => s.stateAlive index
  | readSize _ _ _ => s.stateAlive index
  | storeCompleted _ => s.stateAlive index
  | notifyCaller _ => s.stateAlive index
  | absent | copyBytes _ _ _ _ _ | exited => true

/-- The next step of worker `index`. -/
def workerLoop (index : ℕ) (s : Shared) : Worker → Option (Shared × Worker)
  | absent => none
  | enter => some (s, loadGeneration 0)
  | loadGeneration observed =>
    if s.startGeneration = observed then some (s, checkStopping observed)
    else some (s, checkStoppingAgain s.startGeneration)
  | checkStopping observed =>
    if s.stopping then some (s, exited) else some (s, waitStart observed)
  | waitStart observed =>
    if .worker index ∈ s.queues.start then none
    else if s.startGeneration = observed then
      some (s.sleepOnStart (.worker index), waitStart observed)
    else some (s, loadGeneration observed)
  | checkStoppingAgain generation =>
    if s.stopping then some (s, exited) else some (s, readDst generation)
  | readDst generation => some (s, readSrc generation (s.workerStates index).dst)
  | readSrc generation dst => some (s, readSize generation dst (s.workerStates index).src)
  | readSize generation dst src =>
    some (s, copyBytes generation dst src (s.workerStates index).size 0)
  | copyBytes generation dst src size copied =>
    if copied < size then
      some (s.writeByte (.worker index) (dst + copied) (s.memory (src + copied)),
        copyBytes generation dst src size (copied + 1))
    else some (s, storeCompleted generation)
  | storeCompleted generation =>
    some (s.setState index fun state => { state with completedGeneration := generation },
      notifyCaller generation)
  | notifyCaller generation => some (s.notifyOneCompleted index, loadGeneration generation)
  | exited => none

/-- The next step of worker `index`, undefined if it touches what is no longer there. -/
def step (index : ℕ) (s : Shared) (w : Worker) : Option (Shared × Worker) :=
  w.workerLoop index (s.check (w.defined index s))

/-- The next step reads a field of the worker's state that the caller writes. -/
def ReadsFields : Worker → Prop
  | readDst _ | readSrc _ _ | readSize _ _ _ => True
  | _ => False

/-! ## Between two jobs -/

/-- A worker with no job in hand that has observed the generation `o`. -/
def Resting (o : Generation) : Worker → Prop
  | enter => o = 0
  | loadGeneration b | checkStopping b | waitStart b | notifyCaller b => b = o
  | _ => False

variable {index : ℕ} {s s' : Shared} {w w' : Worker} {o : Generation}

theorem Resting.not_readsFields (h : w.Resting o) : ¬ w.ReadsFields := by
  cases w <;> simp_all [Resting, ReadsFields]

theorem step_eq_workerLoop (h : w.defined index s = true) :
    w.step index s = w.workerLoop index s := by
  rw [step, h, Shared.check_true]

theorem defined_of_alive (hdeleted : s.deleted = false) (hindex : index < s.stateCount) :
    w.defined index s = true := by
  cases w <;> simp [defined, Shared.implAlive, Shared.stateAlive, hdeleted, hindex]

/-- A resting worker of a pool that is not stopping rests on, unless it has seen a generation that
it has not observed yet. -/
theorem Resting.workerLoop (h : w.Resting o) (hstop : s.stopping = false)
    (hact : w.workerLoop index s = some (s', w')) :
    s.SameButQueues s' ∧
      (w'.Resting o ∨ (w' = checkStoppingAgain s.startGeneration ∧ s.startGeneration ≠ o)) := by
  cases w with
  | enter =>
    obtain rfl : o = 0 := h
    cases hact
    exact ⟨.refl, Or.inl rfl⟩
  | loadGeneration b =>
    obtain rfl : b = o := h
    simp only [Worker.workerLoop] at hact
    split at hact
    · cases hact
      exact ⟨.refl, Or.inl rfl⟩
    · rename_i hne
      cases hact
      exact ⟨.refl, Or.inr ⟨rfl, hne⟩⟩
  | checkStopping b =>
    obtain rfl : b = o := h
    simp only [Worker.workerLoop, hstop] at hact
    cases hact
    exact ⟨.refl, Or.inl rfl⟩
  | waitStart b =>
    obtain rfl : b = o := h
    simp only [Worker.workerLoop] at hact
    split at hact
    · cases hact
    · split at hact
      · cases hact
        exact ⟨.sleepOnStart _, Or.inl rfl⟩
      · cases hact
        exact ⟨.refl, Or.inl rfl⟩
  | notifyCaller b =>
    obtain rfl : b = o := h
    cases hact
    exact ⟨.notifyOneCompleted _, Or.inl rfl⟩
  | _ => exact absurd h id

end Worker

end Doost.Memcpy
