import Doost.Foundations.Potential
import Doost.Memcpy.ParallelCopy
import Doost.Memcpy.WakeUps

/-!
# The work of a pool

How many steps the threads of a pool take together. A worker that has seen the current generation
stops after a few steps, and one that has not has its job to do first (`Worker.potential`); the
owner's own steps are counted down in the same way, with what it hands to the workers when it
announces a generation (`Copy.potential`, `System.ownerPotential`). A worker pays for the steps
that it makes the owner take when it completes a generation and when it notifies it
(`Worker.pays`).

Every step of a thread lowers the potential (`Inv.potential_step`), whichever thread it is. So
the steps of a run are bounded by what its calls put in (`run_steps_le`).
-/

namespace Doost.Memcpy

open SplitCopy Transition

/-! ## The potential of a worker -/

/-- The steps of worker `index` from the head of its loop until it goes to sleep or leaves, if
nobody else moves. -/
def loopPotential (index : ℕ) (s : Shared) (observed : Generation) : ℕ :=
  if s.startGeneration = observed then 3
  else if s.stopping then 2
  else (s.workerStates index).size + 15

namespace Worker

/-- The steps that worker `index` still takes if nobody else moves, with what it pays. -/
def potential (index : ℕ) (s : Shared) : Worker → ℕ
  | absent => 0
  | enter => loopPotential index s 0 + 1
  | loadGeneration observed => loopPotential index s observed
  | checkStopping observed =>
    if s.startGeneration = observed then 2 else loopPotential index s observed + 2
  | waitStart observed =>
    if s.startGeneration = observed then (if .worker index ∈ s.queues.start then 0 else 1)
    else loopPotential index s observed + 1
  | checkStoppingAgain generation =>
    if s.stopping then 1
    else (s.workerStates index).size + 11 + loopPotential index s generation
  | readDst generation => (s.workerStates index).size + 10 + loopPotential index s generation
  | readSrc generation _ => (s.workerStates index).size + 9 + loopPotential index s generation
  | readSize generation _ _ => (s.workerStates index).size + 8 + loopPotential index s generation
  | copyBytes generation _ _ size copied => size - copied + 7 + loopPotential index s generation
  | storeCompleted generation => 6 + loopPotential index s generation
  | notifyCaller generation => 2 + loopPotential index s generation
  | exited => 0

/-- A step, and those that it makes the caller of `copy` take. -/
def pays : Worker → ℕ
  | storeCompleted _ => 4
  | notifyCaller _ => 2
  | _ => 1

end Worker

variable {n m i j : ℕ} {call : Call} {sh sh' : Shared} {ws : ℕ → Worker} {w w' : Worker}
  {c c' : Copy} {o : Generation}

theorem loopPotential_congr (hgeneration : sh'.startGeneration = sh.startGeneration)
    (hstop : sh'.stopping = sh.stopping)
    (hsize : (sh'.workerStates i).size = (sh.workerStates i).size) :
    loopPotential i sh' o = loopPotential i sh o := by
  unfold loopPotential
  rw [hgeneration, hstop, hsize]

/-- The potential of a worker is in what it reads and in whether it sleeps. -/
theorem Worker.potential_congr (hgeneration : sh'.startGeneration = sh.startGeneration)
    (hstop : sh'.stopping = sh.stopping)
    (hsize : (sh'.workerStates i).size = (sh.workerStates i).size)
    (hqueue : Thread.worker i ∈ sh'.queues.start ↔ .worker i ∈ sh.queues.start) :
    w.potential i sh' = w.potential i sh := by
  cases w <;>
    simp only [Worker.potential, hgeneration, hstop, hsize, hqueue,
      loopPotential_congr hgeneration hstop hsize]

/-- What a step of worker `i` leaves alone. -/
theorem Worker.workerLoop_frame (hact : w.workerLoop i sh = some (sh', w')) :
    sh'.startGeneration = sh.startGeneration ∧ sh'.stopping = sh.stopping ∧
      sh'.threads = sh.threads ∧ sh'.workerCount = sh.workerCount ∧
      (∀ j, (sh'.workerStates j).size = (sh.workerStates j).size) ∧
      ∀ j, j ≠ i → (Thread.worker j ∈ sh'.queues.start ↔ .worker j ∈ sh.queues.start) := by
  cases w with
  | absent | exited => cases hact
  | loadGeneration o | checkStopping o | checkStoppingAgain g =>
    simp only [Worker.workerLoop] at hact
    split at hact <;> cases hact <;> exact ⟨rfl, rfl, rfl, rfl, fun _ => rfl, fun _ _ => Iff.rfl⟩
  | waitStart o =>
    simp only [Worker.workerLoop] at hact
    split at hact
    · cases hact
    · split at hact <;> cases hact
      · refine ⟨rfl, rfl, rfl, rfl, fun _ => rfl, fun j hj => ?_⟩
        simp [Shared.sleepOnStart, hj]
      · exact ⟨rfl, rfl, rfl, rfl, fun _ => rfl, fun _ _ => Iff.rfl⟩
  | copyBytes g d a k p =>
    simp only [Worker.workerLoop] at hact
    split at hact <;> cases hact <;> exact ⟨rfl, rfl, rfl, rfl, fun _ => rfl, fun _ _ => Iff.rfl⟩
  | storeCompleted g =>
    cases hact
    refine ⟨rfl, rfl, rfl, rfl, fun j => ?_, fun _ _ => Iff.rfl⟩
    rcases eq_or_ne j i with rfl | hne
    · rw [Shared.setState_self]
    · rw [Shared.setState_of_ne hne]
  | _ =>
    cases hact
    exact ⟨rfl, rfl, rfl, rfl, fun _ => rfl, fun _ _ => Iff.rfl⟩

/-- **A step of a worker lowers its own potential** by what it pays. -/
theorem Worker.workerLoop_potential (hact : w.workerLoop i sh = some (sh', w')) :
    w'.potential i sh' + w.pays ≤ w.potential i sh := by
  obtain ⟨hgeneration, hstop, -, -, hsize, -⟩ := Worker.workerLoop_frame hact
  have hloop : ∀ o, loopPotential i sh' o = loopPotential i sh o :=
    fun o => loopPotential_congr hgeneration hstop (hsize i)
  cases w with
  | absent | exited => cases hact
  | enter =>
    cases hact
    exact le_rfl
  | loadGeneration o =>
    simp only [Worker.workerLoop] at hact
    split at hact <;> cases hact
    · next hsame => simp [Worker.potential, Worker.pays, loopPotential, hsame]
    · next hne =>
      simp only [Worker.potential, Worker.pays, loopPotential, if_neg hne, if_pos]
      split <;> omega
  | checkStopping o =>
    simp only [Worker.workerLoop] at hact
    split at hact <;> cases hact <;> simp only [Worker.potential, Worker.pays] <;> split
    · omega
    · omega
    · split <;> omega
    · omega
  | waitStart o =>
    simp only [Worker.workerLoop] at hact
    split at hact
    · cases hact
    · next hawake =>
      split at hact <;> cases hact
      · next hsame =>
        have hasleep : Thread.worker i ∈ (sh.sleepOnStart (.worker i)).queues.start := by
          simp [Shared.sleepOnStart]
        have hsame' : (sh.sleepOnStart (.worker i)).startGeneration = o := hsame
        simp only [Worker.potential, Worker.pays, if_pos hsame, if_pos hsame', if_pos hasleep,
          if_neg hawake]
        omega
      · next hne =>
        simp only [Worker.potential, Worker.pays, if_neg hne]
        exact le_rfl
  | checkStoppingAgain g =>
    simp only [Worker.workerLoop] at hact
    split at hact <;> cases hact
    · next hstopping =>
      simp only [Worker.potential, Worker.pays, if_pos hstopping]
      omega
    · next hrunning =>
      simp only [Worker.potential, Worker.pays, if_neg hrunning]
      omega
  | readDst g | readSrc g d | readSize g d a =>
    cases hact
    simp only [Worker.potential, Worker.pays]
    omega
  | copyBytes g d a k p =>
    simp only [Worker.workerLoop] at hact
    split at hact <;> cases hact <;> simp only [Worker.potential, Worker.pays, hloop]
    · omega
    · omega
  | storeCompleted g =>
    cases hact
    simp only [Worker.potential, Worker.pays, hloop]
    omega
  | notifyCaller g =>
    cases hact
    simp only [Worker.potential, Worker.pays, hloop]
    omega

/-- A resting worker has few steps left, whatever its job was. -/
theorem Worker.Resting.potential_congr (hrest : w.Resting sh.startGeneration)
    (hgeneration : sh'.startGeneration = sh.startGeneration)
    (hqueue : Thread.worker i ∈ sh'.queues.start ↔ .worker i ∈ sh.queues.start) :
    w.potential i sh' = w.potential i sh := by
  cases w with
  | enter =>
    have hzero : sh.startGeneration = 0 := hrest
    simp only [Worker.potential, loopPotential, hgeneration, hzero, if_pos]
  | loadGeneration o | checkStopping o | waitStart o | notifyCaller o =>
    obtain rfl : o = sh.startGeneration := hrest
    simp only [Worker.potential, loopPotential, hgeneration, hqueue, if_pos]
  | _ => exact absurd hrest id

/-- The announcement of a generation gives a resting worker its job. -/
theorem Worker.Resting.potential_announce {g : Generation} (hrest : w.Resting sh.startGeneration) :
    w.potential i { sh with startGeneration := g } ≤
      w.potential i sh + ((sh.workerStates i).size + 16) := by
  have hloop : ∀ o, loopPotential i { sh with startGeneration := g } o ≤
      (sh.workerStates i).size + 15 := by
    intro o
    unfold loopPotential
    split
    · omega
    · split <;> simp
  have hrested : loopPotential i sh sh.startGeneration = 3 := if_pos rfl
  cases w with
  | enter =>
    have hzero : sh.startGeneration = 0 := hrest
    have := hloop 0
    rw [hzero] at hrested
    simp only [Worker.potential, hrested]
    omega
  | loadGeneration o =>
    obtain rfl : o = sh.startGeneration := hrest
    have := hloop sh.startGeneration
    simp only [Worker.potential, hrested]
    omega
  | checkStopping o =>
    obtain rfl : o = sh.startGeneration := hrest
    have := hloop sh.startGeneration
    simp only [Worker.potential, if_pos]
    split <;> omega
  | waitStart o =>
    obtain rfl : o = sh.startGeneration := hrest
    have := hloop sh.startGeneration
    simp only [Worker.potential]
    split
    · split <;> omega
    · omega
  | notifyCaller o =>
    obtain rfl : o = sh.startGeneration := hrest
    have := hloop sh.startGeneration
    simp only [Worker.potential, hrested]
    omega
  | _ => exact absurd hrest id

/-- A notification, or a spurious wake-up, makes a sleeping worker look once more. -/
theorem Worker.potential_queues (queues : Queues) :
    w.potential i { sh with queues := queues } ≤ w.potential i sh + 1 := by
  have hloop : ∀ o, loopPotential i { sh with queues := queues } o = loopPotential i sh o :=
    fun o => rfl
  cases w with
  | waitStart o =>
    simp only [Worker.potential, hloop]
    split
    · split <;> split <;> omega
    · omega
  | _ =>
    simp only [Worker.potential, hloop]
    omega

theorem loopPotential_of_stopping (hstop : sh.stopping = true) :
    loopPotential i sh o = if sh.startGeneration = o then 3 else 2 := by
  rw [loopPotential, if_pos hstop]

/-- After `stopping` has been set, a worker in a pool that is being left has few steps left. -/
theorem Worker.Leaving.potential_stop (hleaving : w.Leaving) :
    w.potential i { sh with stopping := true } ≤ w.potential i sh := by
  have hloop : ∀ o, loopPotential i { sh with stopping := true } o ≤ loopPotential i sh o := by
    intro o
    rw [loopPotential_of_stopping rfl]
    unfold loopPotential
    split_ifs <;> omega
  cases w with
  | absent | exited => exact le_rfl
  | enter =>
    have := hloop 0
    simp only [Worker.potential]
    omega
  | loadGeneration o | notifyCaller o =>
    have := hloop o
    simp only [Worker.potential]
    omega
  | checkStopping o | waitStart o =>
    have := hloop o
    simp only [Worker.potential]
    split
    · exact le_rfl
    · omega
  | checkStoppingAgain g =>
    simp only [Worker.potential, if_pos]
    split <;> omega
  | _ => exact absurd hleaving id

/-- The last generation makes a worker look once more. -/
theorem Worker.Leaving.potential_bump {g : Generation} (hleaving : w.Leaving)
    (hstop : sh.stopping = true) :
    w.potential i { sh with startGeneration := g } ≤ w.potential i sh + 3 := by
  have hloop : ∀ o, loopPotential i sh o = if sh.startGeneration = o then 3 else 2 :=
    fun o => loopPotential_of_stopping hstop
  have hloop' : ∀ o, loopPotential i { sh with startGeneration := g } o = if g = o then 3 else 2 :=
    fun o => loopPotential_of_stopping hstop
  cases w with
  | absent | exited => exact Nat.le_add_right _ _
  | enter | loadGeneration o | notifyCaller o | checkStopping o | waitStart o =>
    simp only [Worker.potential, hloop, hloop']
    split_ifs <;> omega
  | checkStoppingAgain g =>
    simp only [Worker.potential, hstop, if_pos]
    omega
  | _ => exact absurd hleaving id

/-! ## The potential of the owner -/

/-- The steps that a call of `copy` still takes, with those that it gives to the workers. -/
def Copy.potential (s : Shared) (c : Copy) : ℕ :=
  let f := c.frame
  match c.pc with
  | .enter => f.size + 21 * s.workerCount + 7
  | .copySelf copied => f.size - copied + 2
  | .writeDst index => 3 * (f.workerCount - index) + f.size + 18 * f.workerCount + 6
  | .writeSrc index => 3 * (f.workerCount - index) + f.size + 18 * f.workerCount + 5
  | .writeSize index => 3 * (f.workerCount - index) + f.size + 18 * f.workerCount + 4
  | .loadGeneration => f.size + 18 * f.workerCount + 6
  | .storeGeneration _ => f.size + 18 * f.workerCount + 5
  | .notifyStart _ => 2 * f.workerCount + 4
  | .loadCompleted _ index => f.workerCount - index + 3
  | .waitCompleted _ index completed =>
    if (s.workerStates index).completedGeneration = completed then
      if .caller 0 ∈ s.queues.completed index then f.workerCount - index + 1
      else f.workerCount - index + 2
    else f.workerCount - index + 4
  | .returning _ => 1

/-- A step of a worker gives the call no more steps than the worker pays for. -/
theorem Copy.potential_worker (hact : w.workerLoop i sh = some (sh', w')) :
    c.potential sh' + 1 ≤ c.potential sh + w.pays := by
  obtain ⟨-, -, -, hcount, -, -⟩ := Worker.workerLoop_frame hact
  obtain ⟨f, pc⟩ := c
  have hpays : 1 ≤ w.pays := by
    cases w <;> simp [Worker.pays]
  cases pc with
  | waitCompleted g k v =>
    have hlocal : sh'.workerStates = sh.workerStates → sh'.queues.completed = sh.queues.completed →
        (⟨f, .waitCompleted g k v⟩ : Copy).potential sh' + 1 ≤
          (⟨f, .waitCompleted g k v⟩ : Copy).potential sh + w.pays := by
      intro hstates hqueues
      simp only [Copy.potential, hstates, hqueues]
      omega
    cases w with
    | absent | exited => cases hact
    | loadGeneration o | checkStopping o | checkStoppingAgain o | copyBytes o d a k' p =>
      simp only [Worker.workerLoop] at hact
      split at hact <;> cases hact <;> exact hlocal rfl rfl
    | waitStart o =>
      simp only [Worker.workerLoop] at hact
      split at hact
      · cases hact
      · split at hact <;> cases hact <;> exact hlocal rfl rfl
    | storeCompleted o =>
      simp only [Copy.potential, Worker.pays]
      split_ifs <;> omega
    | notifyCaller o =>
      cases hact
      have hstates : (sh.notifyOneCompleted i).workerStates = sh.workerStates := rfl
      simp only [Copy.potential, Worker.pays, hstates]
      split_ifs <;> omega
    | _ =>
      cases hact
      exact hlocal rfl rfl
  | enter =>
    simp only [Copy.potential, hcount]
    omega
  | _ =>
    simp only [Copy.potential]
    omega

/-- Spurious wake-ups, too. -/
theorem Copy.potential_queues (queues : Queues) :
    c.potential { sh with queues := queues } ≤ c.potential sh + 1 := by
  obtain ⟨f, pc⟩ := c
  cases pc with
  | waitCompleted g k v =>
    simp only [Copy.potential]
    split_ifs <;> omega
  | _ => exact Nat.le_succ _

/-! ## The potential of the pool -/

/-- The steps that the owner still takes in the operation that it is in, with those that it gives
to the workers. -/
def System.ownerPotential (s : System) : ℕ :=
  match s.owner with
  | .starting threadCount .setWorkerCount => 5 * threadCount + 4
  | .starting threadCount .allocateStates => 5 * threadCount + 3
  | .starting threadCount .reserveThreads => 5 * threadCount + 2
  | .starting threadCount (.createThread index) => 5 * (threadCount - index) + 1
  | .idle => 0
  | .copying c => c.potential s.shared
  | .stopping _ .storeStopping => 5 * s.shared.threads + 9
  | .stopping _ .bumpGeneration => 5 * s.shared.threads + 8
  | .stopping _ .notifyStart => 2 * s.shared.threads + 7
  | .stopping _ (.join index) => s.shared.threads - index + 6
  | .stopping _ .clearThreads => 5
  | .stopping _ .resetStates => 4
  | .stopping _ .clearWorkerCount => 3
  | .stopping _ .clearStopping => 2
  | .stopping _ .deleteImpl => 1
  | .gone _ => 0

/-- The steps that the workers still take, if nobody else moves. -/
def workersPotential (sh : Shared) (ws : ℕ → Worker) : ℕ :=
  ∑ i ∈ Finset.range sh.threads, (ws i).potential i sh

/-- The steps that are left to all threads. -/
def System.potential (s : System) : ℕ :=
  s.ownerPotential + workersPotential s.shared s.workers

/-- The steps of threads. -/
def Label.steps : Label → ℕ
  | .worker _ | .owner | .throws => 1
  | .copy _ _ _ | .destroy | .client _ _ | .wake _ => 0

/-- What a step adds to the potential of a pool of `n` workers. -/
def Label.pays (n : ℕ) : Label → ℕ
  | .worker _ | .owner | .client _ _ => 0
  | .throws => 5 * n + 10
  | .copy _ _ size => size + 21 * n + 7
  | .destroy => 5 * n + 9
  | .wake _ => 1

/-- A step of worker `i` lowers what is left to the workers. -/
theorem workersPotential_worker (hi : i < sh.threads)
    (hact : (ws i).workerLoop i sh = some (sh', w)) :
    workersPotential sh' (Function.update ws i w) + (ws i).pays ≤ workersPotential sh ws := by
  obtain ⟨hgeneration, hstop, hthreads, -, hsize, hqueue⟩ := Worker.workerLoop_frame hact
  unfold workersPotential
  rw [hthreads]
  refine sum_range_step hi (fun j _ hne => ?_) ?_ (b := 0)
  · rw [Function.update_of_ne hne]
    exact (Worker.potential_congr hgeneration hstop (hsize j) (hqueue j hne)).le
  · rw [Function.update_self]
    exact Worker.workerLoop_potential hact

theorem workersPotential_congr (hthreads : sh'.threads = sh.threads)
    (h : ∀ i < sh.threads, (ws i).potential i sh' = (ws i).potential i sh) :
    workersPotential sh' ws = workersPotential sh ws := by
  unfold workersPotential
  rw [hthreads]
  exact Finset.sum_congr rfl fun i hi => h i (Finset.mem_range.mp hi)

theorem workersPotential_le {a : ℕ} (hthreads : sh'.threads = sh.threads)
    (h : ∀ i < sh.threads, (ws i).potential i sh' ≤ (ws i).potential i sh + a) :
    workersPotential sh' ws ≤ workersPotential sh ws + a * sh.threads := by
  unfold workersPotential
  rw [hthreads]
  exact sum_range_le_add_mul h

/-- Writing a job gives no worker more to do before the next announcement. -/
theorem Quiet.potential_setState (h : Quiet n m sh ws) (f : WorkerState → WorkerState) :
    workersPotential (sh.setState i f) ws = workersPotential sh ws :=
  workersPotential_congr rfl fun j hj =>
    (h.resting j (h.threads ▸ hj)).potential_congr rfl Iff.rfl

/-- **The announcement gives the workers their jobs**, whose sizes add up to that of the call. -/
theorem Filled.potential_announce {f : Frame} {g : Generation} (h : Filled n call f sh ws) :
    workersPotential { sh with startGeneration := g } ws ≤
      workersPotential sh ws + call.size + 16 * n := by
  have hthreads := h.threads
  unfold workersPotential
  change ∑ i ∈ Finset.range sh.threads, _ ≤ _
  rw [hthreads]
  calc ∑ i ∈ Finset.range n, (ws i).potential i { sh with startGeneration := g }
      ≤ ∑ i ∈ Finset.range n, ((ws i).potential i sh + (chunkSize n call.size i + 16)) := by
        refine Finset.sum_le_sum fun i hi => ?_
        have hi' := Finset.mem_range.mp hi
        rw [← (h.jobs i hi').size]
        exact (h.resting i hi').potential_announce
    _ = ∑ i ∈ Finset.range n, (ws i).potential i sh + call.size + 16 * n := by
        rw [Finset.sum_add_distrib, Finset.sum_add_distrib, sum_chunkSize h.positive,
          Finset.sum_const, Finset.card_range, smul_eq_mul]
        omega

/-- Workers that have left take no more steps. -/
theorem Left.workersPotential (h : Left sh ws) : workersPotential sh' ws = 0 := by
  refine Finset.sum_eq_zero fun i _ => ?_
  rcases h.left i with hw | hw <;> (rw [hw]; rfl)

/-! ## Steps -/

/-- Every step of the call lowers what is left to it and the workers. -/
def Copy.Spends (sh : Shared) (ws : ℕ → Worker) (c : Copy) : Prop :=
  ∀ sh' c', c.copy (.caller 0) sh = some (sh', c') →
    c'.potential sh' + workersPotential sh' ws + 1 ≤ c.potential sh + workersPotential sh ws

section Call

variable {f : Frame} {g v : Generation} {k : ℕ}

theorem InCopy.spends_enter (h : InCopy n call ⟨f, .enter⟩ sh ws) :
    Copy.Spends sh ws ⟨f, .enter⟩ := by
  intro sh' c' hact
  have hpc := h.atPc
  have hcount : sh.workerCount = n := hpc.1.workerCount
  simp only [Copy.copy] at hact
  split at hact
  · cases hact
    simp only [Copy.potential]
    omega
  · split at hact <;> cases hact <;> simp only [Copy.potential] <;> omega

theorem InCopy.spends_copySelf : Copy.Spends sh ws ⟨f, .copySelf k⟩ := by
  intro sh' c' hact
  simp only [Copy.copy] at hact
  split at hact <;> cases hact
  · have hsame : workersPotential (sh.writeByte (.caller 0) (f.dst + k)
        (sh.memory (f.src + k))) ws = workersPotential sh ws := rfl
    simp only [Copy.potential, hsame]
    omega
  · simp only [Copy.potential]
    omega

theorem InCopy.spends_writeSize (h : InCopy n call ⟨f, .writeSize k⟩ sh ws) :
    Copy.Spends sh ws ⟨f, .writeSize k⟩ := by
  intro sh' c' hact
  have hpc := h.atPc
  have hworkers : f.workerCount = n := hpc.1.workers
  have hlt : k < n := hpc.1.index_lt
  simp only [Copy.copy] at hact
  split at hact <;> cases hact <;>
    simp only [Copy.potential, hpc.1.toQuiet.potential_setState] <;> omega

/-- The announcement pays for what the workers then do. -/
theorem InCopy.spends_storeGeneration (h : InCopy n call ⟨f, .storeGeneration g⟩ sh ws) :
    Copy.Spends sh ws ⟨f, .storeGeneration g⟩ := by
  intro sh' c' hact
  have hpc := h.atPc
  cases hact
  have hsize : f.size = call.size := h.size
  have hworkers : f.workerCount = n := hpc.1.workers
  have hannounce := hpc.1.potential_announce (g := g)
  simp only [Copy.potential]
  omega

theorem InCopy.spends_notifyStart (h : InCopy n call ⟨f, .notifyStart g⟩ sh ws) :
    Copy.Spends sh ws ⟨f, .notifyStart g⟩ := by
  intro sh' c' hact
  have hpc := h.atPc
  cases hact
  have hthreads : sh.threads = n := h.started.threads
  have hworkers : f.workerCount = n := hpc.workers
  have hnotify : workersPotential sh.notifyAllStart ws ≤
      workersPotential sh ws + 1 * sh.threads :=
    workersPotential_le rfl fun i _ => Worker.potential_queues _
  simp only [Copy.potential]
  omega

theorem InCopy.spends_loadCompleted (h : InCopy n call ⟨f, .loadCompleted g k⟩ sh ws) :
    Copy.Spends sh ws ⟨f, .loadCompleted g k⟩ := by
  intro sh' c' hact
  have hpc := h.atPc
  have hworkers : f.workerCount = n := hpc.workers
  have hle : k ≤ n := hpc.index_le
  simp only [Copy.copy] at hact
  split at hact
  · cases hact
    simp only [Copy.potential]
    omega
  · split at hact <;> cases hact
    · simp only [Copy.potential]
      omega
    · simp only [Copy.potential, if_pos]
      split <;> omega

theorem InCopy.spends_waitCompleted : Copy.Spends sh ws ⟨f, .waitCompleted g k v⟩ := by
  intro sh' c' hact
  simp only [Copy.copy] at hact
  split at hact
  · cases hact
  · next hawake =>
    split at hact <;> cases hact
    · next hsame =>
      have hasleep : Thread.caller 0 ∈
          (sh.sleepOnCompleted k (.caller 0)).queues.completed k := by
        simp [Shared.sleepOnCompleted]
      have hsame' : ((sh.sleepOnCompleted k (.caller 0)).workerStates k).completedGeneration =
        v := hsame
      have hworkers : workersPotential (sh.sleepOnCompleted k (.caller 0)) ws =
        workersPotential sh ws := rfl
      simp only [Copy.potential, if_pos hsame, if_pos hsame', if_pos hasleep, if_neg hawake,
        hworkers]
      omega
    · next hne =>
      simp only [Copy.potential, if_neg hne]
      omega

end Call

/-- A step of the call. -/
theorem InCopy.spends (h : InCopy n call c sh ws) : Copy.Spends sh ws c := by
  obtain ⟨f, pc⟩ := c
  have hpc := h.atPc
  cases pc with
  | enter => exact h.spends_enter
  | copySelf k => exact InCopy.spends_copySelf
  | writeDst k =>
    intro sh' c' hact
    cases hact
    simp only [Copy.potential, hpc.toQuiet.potential_setState]
    omega
  | writeSrc k =>
    intro sh' c' hact
    cases hact
    simp only [Copy.potential, hpc.1.toQuiet.potential_setState]
    omega
  | writeSize k => exact h.spends_writeSize
  | loadGeneration =>
    intro sh' c' hact
    cases hact
    simp only [Copy.potential]
    omega
  | storeGeneration g => exact h.spends_storeGeneration
  | notifyStart g => exact h.spends_notifyStart
  | loadCompleted g k => exact h.spends_loadCompleted
  | waitCompleted g k v => exact InCopy.spends_waitCompleted
  | returning v =>
    intro sh' c' hact
    cases hact

namespace Inv

variable {s s' : System}

/-- A step of `start_workers`. -/
theorem potential_start {pc : StartPc} (h : Inv n call s) (howner : s.owner = .starting m pc)
    (hstep : s.startWorkers m pc = some s') : s'.potential + 1 ≤ s.potential := by
  obtain ⟨sh, owner, ws⟩ := s
  subst howner
  cases pc with
  | setWorkerCount =>
    cases hstep
    have hsame : workersPotential { sh with workerCount := m } ws = workersPotential sh ws := rfl
    simp only [System.potential, System.ownerPotential, hsame]
    omega
  | allocateStates =>
    obtain ⟨-, -, hstanding, -⟩ := h
    cases hstep
    have hsame : workersPotential { sh with
        workerStates := fun _ => ⟨0, 0, 0, 0⟩, stateCount := m } ws = workersPotential sh ws := by
      refine workersPotential_congr rfl fun i hi => ?_
      rw [hstanding.threads] at hi
      exact absurd hi (Nat.not_lt_zero i)
    simp only [System.potential, System.ownerPotential, hsame]
    omega
  | reserveThreads =>
    cases hstep
    simp only [System.potential, System.ownerPotential]
    omega
  | createThread k =>
    obtain ⟨rfl, hzero, hquiet⟩ := h
    have hgeneration : sh.startGeneration = 0 := hzero
    have hle : k ≤ m := hquiet.threads_le.trans_eq hquiet.stateCount
    obtain rfl : sh.threads = k := hquiet.threads
    simp only [System.startWorkers] at hstep
    split at hstep <;> cases hstep
    · simp only [System.potential, System.ownerPotential]
      omega
    · have hnew : workersPotential { sh with threads := sh.threads + 1 }
          (Function.update ws sh.threads .enter) = workersPotential sh ws + 4 := by
        have henter : Worker.potential sh.threads { sh with threads := sh.threads + 1 } .enter =
            4 := by
          simp only [Worker.potential, loopPotential, hgeneration, if_pos]
        unfold workersPotential
        rw [Finset.sum_range_succ, Function.update_self, henter]
        refine congrArg (· + 4) (Finset.sum_congr rfl fun i hi => ?_)
        rw [Function.update_of_ne (Nat.ne_of_lt (Finset.mem_range.mp hi))]
        rfl
      simp only [System.potential, System.ownerPotential, hnew]
      omega

/-- A step of `stop_workers`. -/
theorem potential_stop {thrown : Bool} {pc : StopPc} (h : Inv n call s)
    (howner : s.owner = .stopping thrown pc) (hstep : s.stopWorkers thrown pc = some s') :
    s'.potential + 1 ≤ s.potential := by
  obtain ⟨sh, owner, ws⟩ := s
  subst howner
  cases pc with
  | storeStopping =>
    obtain ⟨m, hstanding⟩ := h
    cases hstep
    have hstop : workersPotential { sh with stopping := true } ws ≤
        workersPotential sh ws + 0 * sh.threads := by
      refine workersPotential_le rfl fun i hi => ?_
      exact (hstanding.resting i (hstanding.threads ▸ hi)).leaving.potential_stop
    simp only [System.potential, System.ownerPotential]
    omega
  | bumpGeneration =>
    obtain ⟨m, hleaving⟩ := h
    cases hstep
    have hbump : workersPotential { sh with startGeneration := sh.startGeneration + 1 } ws ≤
        workersPotential sh ws + 3 * sh.threads := by
      refine workersPotential_le rfl fun i hi => ?_
      exact (hleaving.leaving i (hleaving.threads ▸ hi)).potential_bump hleaving.stopping
    simp only [System.potential, System.ownerPotential]
    omega
  | notifyStart =>
    cases hstep
    have hnotify : workersPotential sh.notifyAllStart ws ≤
        workersPotential sh ws + 1 * sh.threads :=
      workersPotential_le rfl fun i _ => Worker.potential_queues _
    have hthreads : sh.notifyAllStart.threads = sh.threads := rfl
    simp only [System.potential, System.ownerPotential, hthreads]
    omega
  | join k =>
    obtain ⟨m, hleaving, hexited⟩ := h
    simp only [System.stopWorkers] at hstep
    split at hstep
    · cases hstep
      simp only [System.potential, System.ownerPotential]
      omega
    · next hne =>
      split at hstep <;> cases hstep
      have hthreads : sh.threads = m := hleaving.threads
      have hlt : k ≤ m := by
        by_contra hgt
        have habsent : ws m = .absent := hleaving.absent m le_rfl
        have hexit : ws m = .exited := hexited m (by omega)
        rw [hexit] at habsent
        cases habsent
      simp only [System.potential, System.ownerPotential]
      omega
  | clearThreads | resetStates | clearWorkerCount | clearStopping | deleteImpl =>
    have hleft : Left sh ws := h
    cases hstep
    simp only [System.potential, System.ownerPotential, hleft.workersPotential]
    omega

/-- A step of the owner. -/
theorem potential_owner (h : Inv n call s) (hstep : s.ownerStep = some s') :
    s'.potential + 1 ≤ s.potential := by
  obtain ⟨sh, owner, ws⟩ := s
  cases owner with
  | starting m pc => exact h.potential_start rfl hstep
  | idle => cases hstep
  | copying c =>
    simp only [System.ownerStep] at hstep
    split at hstep
    · next v hpc =>
      cases hstep
      simp only [System.potential, System.ownerPotential, Copy.potential, hpc]
      omega
    · obtain ⟨⟨sh', c'⟩, hr, rfl⟩ := Option.map_eq_some_iff.mp hstep
      rw [Copy.step_eq_copy (InCopy.defined h)] at hr
      exact InCopy.spends h _ _ hr
  | stopping thrown pc => exact h.potential_stop rfl hstep
  | gone thrown => cases hstep

/-- A step of worker `i`. -/
theorem potential_worker (h : Inv n call s) (hstep : s.workerStep i = some s') :
    s'.potential + 1 ≤ s.potential := by
  obtain ⟨sh', w, hact, rfl⟩ := h.workerStep hstep
  obtain ⟨-, -, hthreads, -, -, -⟩ := Worker.workerLoop_frame hact
  have hi : i < s.shared.threads := by
    rcases h.started_or_left with ⟨m, hstarted⟩ | hleft
    · by_contra hge
      rw [hstarted.threads] at hge
      rw [hstarted.absent i (Nat.le_of_not_lt hge)] at hact
      cases hact
    · rcases hleft.left i with hw | hw <;> (rw [hw] at hact; cases hact)
  have hworkers := workersPotential_worker hi hact
  have howner : ({ s with shared := sh', workers := Function.update s.workers i w } :
      System).ownerPotential + 1 ≤ s.ownerPotential + (s.workers i).pays := by
    have hpays : 1 ≤ (s.workers i).pays := by
      cases s.workers i <;> simp [Worker.pays]
    obtain ⟨sh, owner, ws⟩ := s
    have hsame : sh'.threads = sh.threads := hthreads
    change 1 ≤ (ws i).pays at hpays
    cases owner with
    | copying c => exact Copy.potential_worker hact
    | starting m pc => cases pc <;> exact Nat.add_le_add_left hpays _
    | stopping thrown pc =>
      cases pc <;> simp only [System.ownerPotential, hsame] <;> exact Nat.add_le_add_left hpays _
    | _ => exact Nat.add_le_add_left hpays _
  simp only [System.potential]
  omega

/-- A spurious wake-up makes one thread look once more. -/
theorem potential_wake (s : System) (t : Thread) :
    ({ s with shared := s.shared.wake t } : System).potential ≤ s.potential + 1 := by
  obtain ⟨sh, owner, ws⟩ := s
  have hmem : ∀ u, u ≠ t → (u ∈ (sh.wake t).queues.start ↔ u ∈ sh.queues.start) := by
    intro u hu
    simp [Shared.wake, hu]
  have hcompleted : ∀ k u, u ≠ t →
      (u ∈ (sh.wake t).queues.completed k ↔ u ∈ sh.queues.completed k) := by
    intro k u hu
    simp [Shared.wake, hu]
  cases t with
  | caller k =>
    have hworkers : workersPotential (sh.wake (.caller k)) ws = workersPotential sh ws :=
      workersPotential_congr rfl fun i _ =>
        Worker.potential_congr rfl rfl rfl (hmem (.worker i) (by simp))
    have howner : (⟨sh.wake (.caller k), owner, ws⟩ : System).ownerPotential ≤
        (⟨sh, owner, ws⟩ : System).ownerPotential + 1 := by
      cases owner with
      | copying c => exact Copy.potential_queues _
      | starting m pc | stopping thrown pc => cases pc <;> exact Nat.le_succ _
      | _ => exact Nat.le_succ _
    simp only [System.potential, hworkers]
    omega
  | worker i =>
    have hworkers : workersPotential (sh.wake (.worker i)) ws ≤ workersPotential sh ws + 1 := by
      have hothers : ∀ j, j ≠ i →
          (ws j).potential j (sh.wake (.worker i)) = (ws j).potential j sh := fun j hj =>
        Worker.potential_congr rfl rfl rfl (hmem (.worker j) (by simpa using hj))
      have hthreads : (sh.wake (.worker i)).threads = sh.threads := rfl
      unfold workersPotential
      rw [hthreads]
      by_cases hi : i < sh.threads
      · exact sum_range_step hi (fun j _ hj => (hothers j hj).le)
          (Worker.potential_queues _) (a := 0)
      · refine (Finset.sum_le_sum fun j hj => ?_).trans (Nat.le_succ _)
        rw [Finset.mem_range] at hj
        exact (hothers j (by omega)).le
    have howner : (⟨sh.wake (.worker i), owner, ws⟩ : System).ownerPotential =
        (⟨sh, owner, ws⟩ : System).ownerPotential := by
      cases owner with
      | copying c =>
        obtain ⟨f, pc⟩ := c
        cases pc with
        | waitCompleted g k v =>
          have hsame := hcompleted k (.caller 0) (by simp)
          have hstates : (sh.wake (.worker i)).workerStates = sh.workerStates := rfl
          simp only [System.ownerPotential, Copy.potential, hsame, hstates]
        | _ => rfl
      | starting m pc | stopping thrown pc => cases pc <;> rfl
      | _ => rfl
    simp only [System.potential, howner]
    omega

/-- An exception in the constructor stops the threads that have been created. -/
theorem throws_eq (h : Inv n call s) (hstep : s.throwStep = some s') :
    s.shared.threads ≤ n ∧ s' = { s with owner := .stopping true .storeStopping } := by
  obtain ⟨sh, owner, ws⟩ := s
  cases owner with
  | starting m pc =>
    cases pc with
    | setWorkerCount => cases hstep
    | allocateStates =>
      have hthreads : sh.threads = 0 := h.2.2.1.threads
      cases hstep
      exact ⟨hthreads.trans_le (Nat.zero_le n), rfl⟩
    | reserveThreads =>
      have hthreads : sh.threads = 0 := h.2.2.threads
      cases hstep
      exact ⟨hthreads.trans_le (Nat.zero_le n), rfl⟩
    | createThread i =>
      have hquiet : Quiet n i sh ws := h.2.2
      simp only [System.throwStep] at hstep
      split at hstep
      · cases hstep
      · cases hstep
        exact ⟨hquiet.threads ▸ hquiet.threads_le.trans_eq hquiet.stateCount, rfl⟩
  | _ => cases hstep

/-- **Every step is paid for.** -/
theorem potential_step {l : Label} (h : Inv n call s) (hstep : s.next l = some s') :
    s'.potential + l.steps ≤ s.potential + l.pays n := by
  cases l with
  | worker i => exact h.potential_worker hstep
  | owner => exact h.potential_owner hstep
  | throws =>
    obtain ⟨hthreads, rfl⟩ := h.throws_eq hstep
    simp only [System.potential, System.ownerPotential, Label.steps, Label.pays]
    omega
  | copy dst src size =>
    simp only [System.next] at hstep
    split at hstep
    · obtain ⟨hquiet, howner, rfl⟩ := h.between hstep
      simp only [System.potential, System.ownerPotential, Copy.potential, Copy.call,
        hquiet.workerCount, howner, Label.steps, Label.pays]
      omega
    · cases hstep
  | destroy =>
    simp only [System.next] at hstep
    obtain ⟨hquiet, howner, rfl⟩ := h.between hstep
    simp only [System.potential, System.ownerPotential, hquiet.threads, howner, Label.steps,
      Label.pays]
    omega
  | client address byte =>
    simp only [System.next] at hstep
    obtain ⟨-, howner, rfl⟩ := h.between hstep
    obtain ⟨sh, owner, ws⟩ := s
    subst howner
    exact le_rfl
  | wake t =>
    obtain rfl := Option.some.inj hstep
    exact potential_wake s t

end Inv

/-! ## Every run -/

theorem potential_start (n : ℕ) (memory : Address → Byte) :
    (System.start n memory).potential = 5 * n + 4 := by
  simp only [System.potential, System.ownerPotential, System.start, workersPotential, Shared.new,
    Finset.range_zero, Finset.sum_empty]
  rfl

/-- The steps of a run are paid for. -/
theorem potential_run {s s' : System} {ls : List Label} (h : Inv n call s)
    (hrun : run System.next s ls = some s') :
    s'.potential + cost Label.steps ls ≤ s.potential + cost (Label.pays n) ls := by
  have hkeep : ∀ s l s', (∃ call, Inv n call s) → s.next l = some s' → ∃ call, Inv n call s' := by
    rintro s l s' ⟨call, h⟩ hstep
    exact h.exists_next hstep
  have hpaid : ∀ s l s', (∃ call, Inv n call s) → s.next l = some s' →
      s'.potential + l.steps ≤ s.potential + l.pays n := by
    rintro s l s' ⟨call, h⟩ hstep
    exact h.potential_step hstep
  exact run_cost_le hkeep hpaid ⟨call, h⟩ hrun

/-- **The work of a pool is linear.** In every run of a pool of `n` workers, over any number of
calls, with any schedule, spurious wake-ups and exceptions, the threads of the pool take together
no more than `5 n + 4` steps for the constructor, `size + 21 n + 7` for each call, `5 n + 9` for
the destructor, `5 n + 10` for an exception in the constructor, and one for each spurious
wake-up. -/
theorem run_steps_le {memory : Address → Byte} {ls : List Label} {s : System}
    (hrun : run System.next (System.start n memory) ls = some s) :
    cost Label.steps ls ≤ 5 * n + 4 + cost (Label.pays n) ls := by
  have hempty : Separate 0 0 0 := Or.inl le_rfl
  have hle := potential_run (inv_start n ⟨0, 0, 0, hempty, memory, []⟩ memory) hrun
  rw [potential_start] at hle
  omega

/-- The construction of a pool of two workers, and a call. -/
theorem run_steps_le_twoWorkers :
    ∃ s, run System.next (System.start 2 (BitVec.ofNat 8))
        (constructTwo ++ .copy 20 10 3 :: copyOnTwo) = some s ∧
      cost Label.steps (constructTwo ++ .copy 20 10 3 :: copyOnTwo) ≤
        5 * 2 + 4 + cost (Label.pays 2) (constructTwo ++ .copy 20 10 3 :: copyOnTwo) := by
  have hsome : (run System.next (System.start 2 (BitVec.ofNat 8))
      (constructTwo ++ .copy 20 10 3 :: copyOnTwo)).isSome := by rfl
  obtain ⟨s, hs⟩ := Option.isSome_iff_exists.mp hsome
  exact ⟨s, hs, run_steps_le hs⟩

end Doost.Memcpy
