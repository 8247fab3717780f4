import Doost.Memcpy.Stages

/-!
# The handshake between `copy` and the workers

What holds at each place of `copy`. Until the owner announces a generation the
pool is quiet, and the owner fills in the jobs (`Filling`); from the announcement on the pool is
running, and the owner passes a worker only when it has completed the generation (`Awaiting`); the
owner returns when it has passed all of them, and the pool is quiet again (`Finished`).

`InCopy n call c sh ws` says so of the call `c` in a pool of `n` workers. A step of the owner keeps
it (`InCopy.copy`), and so does every step of the others (`InCopy.move`).
-/

namespace Doost.Memcpy

open SplitCopy

/-! ## One call of `copy` -/

/-- Nothing of the call has been copied. -/
def Untouched (call : Call) (sh : Shared) : Prop :=
  sh.memory = call.memory ∧ sh.writes = call.writes

/-- The first `i` jobs of the call have been written. -/
structure Filling (n : ℕ) (call : Call) (i : ℕ) (f : Frame) (sh : Shared) (ws : ℕ → Worker) :
    Prop extends Quiet n n sh ws where
  untouched : Untouched call sh
  workers : f.workerCount = n
  share : f.workerSize = call.size / n
  offset : f.offset = chunkStart n call.size i
  index_lt : i < n
  jobs : ∀ j < i, Job n call j (sh.workerStates j)

/-- All jobs of the call have been written. -/
structure Filled (n : ℕ) (call : Call) (f : Frame) (sh : Shared) (ws : ℕ → Worker) :
    Prop extends Quiet n n sh ws where
  positive : 0 < n
  untouched : Untouched call sh
  workers : f.workerCount = n
  jobs : ∀ j < n, Job n call j (sh.workerStates j)

/-- The generation `g` has been announced, and the first `i` workers have completed it. -/
structure Awaiting (n : ℕ) (call : Call) (g : Generation) (i : ℕ) (f : Frame) (sh : Shared)
    (ws : ℕ → Worker) : Prop extends Running n call sh ws where
  positive : 0 < n
  generation : sh.startGeneration = g
  workers : f.workerCount = n
  passed : ∀ j < i, (sh.workerStates j).completedGeneration = sh.startGeneration
  index_le : i ≤ n

/-- The first `k` bytes of the call have been copied by the owner. -/
def SelfCopied (call : Call) (k : ℕ) (sh : Shared) : Prop :=
  ∃ new, sh.writes = new ++ call.writes ∧
    Copied call.memory call.dst call.src (fun t j => t = .caller 0 ∧ j < k) sh.memory new

/-- The threads that copy in a pool of `n` workers. -/
def Copier (n : ℕ) (t : Thread) : Prop :=
  if n = 0 then t = .caller 0 else ∃ i < n, t = .worker i

/-- The call has been carried out: its destination equals its source, nothing else has changed, and
each byte of the destination has been written once, by one of the threads that copy. -/
structure Finished (n : ℕ) (call : Call) (sh : Shared) : Prop where
  equal : ∀ k < call.size, sh.memory (call.dst + k) = sh.memory (call.src + k)
  outside : ∀ a, a < call.dst ∨ call.dst + call.size ≤ a → sh.memory a = call.memory a
  written : ∃ new, sh.writes = new ++ call.writes ∧
    (∀ k < call.size, ∃ t, Copier n t ∧ writersOf new (call.dst + k) = [t]) ∧
    ∀ a, a < call.dst ∨ call.dst + call.size ≤ a → writersOf new a = []

/-- What holds at each place of `copy`. -/
def AtPc (n : ℕ) (call : Call) (f : Frame) (sh : Shared) (ws : ℕ → Worker) : CopyPc → Prop
  | .enter => Quiet n n sh ws ∧ Untouched call sh
  | .copySelf k => Quiet n n sh ws ∧ n = 0 ∧ k ≤ call.size ∧ SelfCopied call k sh
  | .writeDst i => Filling n call i f sh ws
  | .writeSrc i => Filling n call i f sh ws ∧
      (sh.workerStates i).dst = call.dst + chunkStart n call.size i
  | .writeSize i => Filling n call i f sh ws ∧
      (sh.workerStates i).dst = call.dst + chunkStart n call.size i ∧
      (sh.workerStates i).src = call.src + chunkStart n call.size i
  | .loadGeneration => Filled n call f sh ws
  | .storeGeneration g => Filled n call f sh ws ∧ g = sh.startGeneration + 1
  | .notifyStart g => Awaiting n call g 0 f sh ws
  | .loadCompleted g i => Awaiting n call g i f sh ws
  | .waitCompleted g i _ => Awaiting n call g i f sh ws ∧ i < n
  | .returning value => Quiet n n sh ws ∧ value = call.dst ∧ Finished n call sh

/-- What holds of a call of `copy` in a pool of `n` workers. -/
structure InCopy (n : ℕ) (call : Call) (c : Copy) (sh : Shared) (ws : ℕ → Worker) : Prop where
  dst : c.frame.dst = call.dst
  src : c.frame.src = call.src
  size : c.frame.size = call.size
  atPc : AtPc n call c.frame sh ws c.pc

variable {n m i k : ℕ} {call : Call} {f : Frame} {g : Generation} {sh sh' : Shared}
  {ws : ℕ → Worker} {w : Worker}

theorem Quiet.alive (h : Quiet n m sh ws) : sh.implAlive = true := by
  simp [Shared.implAlive, h.deleted]

theorem Quiet.stateAlive (h : Quiet n m sh ws) (hi : i < n) : sh.stateAlive i = true := by
  simp [Shared.stateAlive, h.deleted, h.stateCount, hi]

theorem Running.alive (h : Running n call sh ws) : sh.implAlive = true := by
  simp [Shared.implAlive, h.deleted]

theorem Running.stateAlive (h : Running n call sh ws) (hi : i < n) : sh.stateAlive i = true := by
  simp [Shared.stateAlive, h.deleted, h.stateCount, hi]

/-! ## Writing the jobs -/

/-- An assignment to a field of a job keeps the pool quiet. -/
theorem Quiet.setState (h : Quiet n m sh ws) {f : WorkerState → WorkerState}
    (hf : ∀ st, (f st).completedGeneration = st.completedGeneration) :
    Quiet n m (sh.setState i f) ws := by
  refine ⟨⟨h.toStarted.setState i f, h.stopping, h.resting⟩, h.workerCount, h.stateCount,
    fun j hj => ?_⟩
  rcases eq_or_ne j i with rfl | hne
  · rw [Shared.setState_self, hf]
    exact h.completed j hj
  · rw [Shared.setState_of_ne hne]
    exact h.completed j hj

theorem Filling.setState (h : Filling n call i f sh ws) {u : WorkerState → WorkerState}
    (hu : ∀ st, (u st).completedGeneration = st.completedGeneration) :
    Filling n call i f (sh.setState i u) ws := by
  refine ⟨h.toQuiet.setState hu, h.untouched, h.workers, h.share, h.offset, h.index_lt,
    fun j hj => ?_⟩
  rw [Shared.setState_of_ne (by omega)]
  exact h.jobs j hj

/-- The last assignment to a job that is not the last one. -/
theorem Filling.next (h : Filling n call i f sh ws) (hi : i ≠ n - 1)
    (hjob : Job n call i (sh.workerStates i)) :
    Filling n call (i + 1) { f with offset := f.offset + f.workerSize } sh ws := by
  have hlt := h.index_lt
  refine ⟨h.toQuiet, h.untouched, h.workers, h.share, ?_, by omega, fun j hj => ?_⟩
  · rw [h.offset, h.share, chunkStart_succ]
  · rcases Nat.lt_succ_iff_lt_or_eq.mp hj with hj | rfl
    · exact h.jobs j hj
    · exact hjob

/-- The last assignment to the last job. -/
theorem Filling.filled (h : Filling n call i f sh ws) (hi : i = n - 1)
    (hjob : Job n call i (sh.workerStates i)) : Filled n call f sh ws := by
  have hlt := h.index_lt
  refine ⟨h.toQuiet, by omega, h.untouched, h.workers, fun j hj => ?_⟩
  rcases Nat.lt_or_ge j i with hlt | hge
  · exact h.jobs j hlt
  · obtain rfl : j = i := by omega
    exact hjob

/-- The announcement: every worker rests at the generation before, and has copied nothing. -/
theorem Filled.announce (h : Filled n call f sh ws) :
    Awaiting n call (sh.startGeneration + 1) 0 f
      { sh with startGeneration := sh.startGeneration + 1 } ws := by
  have hnothing : ∀ t k, ¬ Wrote n call (fun _ => 0) t k := by
    rintro t k ⟨i, -, -, hle, hlt⟩
    exact absurd hlt (Nat.not_lt.mpr hle)
  refine ⟨⟨⟨h.threads, h.threads_le, h.deleted, h.undefined, h.absent⟩, h.stopping, h.workerCount,
    h.stateCount, h.jobs, fun _ => 0, [], fun i hi => ?_, h.untouched.2, ?_⟩, h.positive, rfl,
    h.workers, fun j hj => absurd hj (Nat.not_lt_zero j), Nat.zero_le n⟩
  · have hdone := h.completed i hi
    have hrest := h.resting i hi
    rw [← hdone] at hrest
    exact .waiting (congrArg (· + 1) hdone) hrest
  · have hmemory : sh.memory = call.memory := h.untouched.1
    rw [hmemory]
    exact .nothing hnothing

/-! ## The end of a call -/

/-- Nothing to copy. -/
theorem Finished.empty (hsize : call.size = 0) (h : Untouched call sh) : Finished n call sh := by
  refine ⟨fun k hk => by omega, fun a _ => congrFun h.1 a, [], h.2, fun k hk => by omega,
    fun _ _ => rfl⟩

/-- The owner has copied every byte. -/
theorem SelfCopied.finished (h : SelfCopied call call.size sh) : Finished 0 call sh := by
  obtain ⟨new, hwrites, hcopied⟩ := h
  obtain ⟨hequal, houtside, hwritten⟩ := hcopied.complete call.separate (fun _ _ hk => hk.2)
    fun k hk => ⟨.caller 0, rfl, hk⟩
  refine ⟨hequal, fun a ha => (houtside a ha).1, new, hwrites, fun k hk => ?_,
    fun a ha => (houtside a ha).2⟩
  obtain ⟨t, ⟨rfl, -⟩, ht⟩ := hwritten k hk
  exact ⟨_, rfl, ht⟩

/-- The next byte of the owner's own copy. -/
theorem SelfCopied.write (h : SelfCopied call k sh) (hk : k < call.size) :
    SelfCopied call (k + 1)
      (sh.writeByte (.caller 0) (call.dst + k) (sh.memory (call.src + k))) := by
  obtain ⟨new, hwrites, hcopied⟩ := h
  have hseparate := call.separate
  unfold Separate at hseparate
  refine ⟨_, congrArg _ hwrites, hcopied.write (fun t ht => ?_) (fun t j hj => ?_) fun t j => ?_⟩
  · exact absurd ht.2 (Nat.lt_irrefl k)
  · have := hj.2
    omega
  · constructor
    · rintro ⟨rfl, hj⟩
      rcases Nat.lt_succ_iff_lt_or_eq.mp hj with hj | rfl
      · exact Or.inl ⟨rfl, hj⟩
      · exact Or.inr ⟨rfl, rfl⟩
    · rintro (⟨rfl, hj⟩ | ⟨rfl, rfl⟩)
      · exact ⟨rfl, by omega⟩
      · exact ⟨rfl, by omega⟩

/-- Every worker has been passed. -/
theorem Awaiting.finished (h : Awaiting n call g n f sh ws) :
    Quiet n n sh ws ∧ Finished n call sh := by
  obtain ⟨hquiet, new, hwrites, hcopied⟩ := h.toRunning.complete h.passed
  have hcover : ∀ k < call.size, ∃ t, Wrote n call (chunkSize n call.size) t k := by
    intro k hk
    obtain ⟨i, hi, hle, hlt⟩ := exists_chunk h.positive hk
    exact ⟨.worker i, i, hi, rfl, hle, hlt⟩
  obtain ⟨hequal, houtside, hwritten⟩ := hcopied.complete call.separate
    (fun t k hk => hk.lt fun _ _ => le_rfl) hcover
  refine ⟨hquiet, hequal, fun a ha => (houtside a ha).1, new, hwrites, fun k hk => ?_,
    fun a ha => (houtside a ha).2⟩
  obtain ⟨t, ⟨i, hi, ht, -⟩, hlist⟩ := hwritten k hk
  have hcopier : Copier n t := by
    rw [Copier, if_neg h.positive.ne']
    exact ⟨i, hi, ht⟩
  exact ⟨t, hcopier, hlist⟩

/-- One more worker has completed the generation. -/
theorem Awaiting.pass (h : Awaiting n call g i f sh ws) (hi : i ≠ n)
    (hdone : (sh.workerStates i).completedGeneration = g) :
    Awaiting n call g (i + 1) f sh ws := by
  have hle := h.index_le
  refine ⟨h.toRunning, h.positive, h.generation, h.workers, fun j hj => ?_, by omega⟩
  rcases Nat.lt_succ_iff_lt_or_eq.mp hj with hj | rfl
  · exact h.passed j hj
  · exact hdone.trans h.generation.symm

/-! ## Steps of the caller -/

namespace InCopy

variable {me : Thread} {c c' : Copy}

theorem started (h : InCopy n call c sh ws) : Started n sh ws := by
  obtain ⟨f, pc⟩ := c
  have hpc := h.atPc
  cases pc with
  | enter => exact hpc.1.toStarted
  | copySelf k => exact hpc.1.toStarted
  | writeDst i => exact hpc.toQuiet.toStarted
  | writeSrc i => exact hpc.1.toQuiet.toStarted
  | writeSize i => exact hpc.1.toQuiet.toStarted
  | loadGeneration => exact hpc.toQuiet.toStarted
  | storeGeneration g => exact hpc.1.toQuiet.toStarted
  | notifyStart g => exact hpc.toRunning.toStarted
  | loadCompleted g i => exact hpc.toRunning.toStarted
  | waitCompleted g i v => exact hpc.1.toRunning.toStarted
  | returning v => exact hpc.1.toStarted

/-- What the next step of the call touches is there. -/
theorem defined (h : InCopy n call c sh ws) : c.defined sh = true := by
  obtain ⟨f, pc⟩ := c
  have hpc := h.atPc
  cases pc with
  | enter => simp [Copy.defined, hpc.1.alive]
  | copySelf k => rfl
  | writeDst i => exact hpc.toQuiet.stateAlive hpc.index_lt
  | writeSrc i => exact hpc.1.toQuiet.stateAlive hpc.1.index_lt
  | writeSize i => exact hpc.1.toQuiet.stateAlive hpc.1.index_lt
  | loadGeneration => exact hpc.toQuiet.alive
  | storeGeneration g => exact hpc.1.toQuiet.alive
  | notifyStart g => exact hpc.toRunning.alive
  | loadCompleted g i =>
    rcases eq_or_ne i n with rfl | hne
    · have hcount : f.workerCount = i := hpc.workers
      simp [Copy.defined, hcount]
    · have hle := hpc.index_le
      simp [Copy.defined, hpc.toRunning.stateAlive (show i < n by omega)]
  | waitCompleted g i v => exact hpc.1.toRunning.stateAlive hpc.2
  | returning v => rfl

/-- `copy` begins. -/
theorem enter (h : InCopy n call ⟨f, .enter⟩ sh ws)
    (hcopy : Copy.copy me sh ⟨f, .enter⟩ = some (sh', c')) : InCopy n call c' sh' ws := by
  obtain ⟨hdst, hsrc, hsize, hquiet, huntouched⟩ := h
  simp only [Copy.copy] at hcopy
  split at hcopy
  · rename_i hzero
    cases hcopy
    exact ⟨hdst, hsrc, hsize, hquiet, hdst, .empty (hsize.symm.trans hzero) huntouched⟩
  · split at hcopy
    · rename_i hn
      rw [hquiet.workerCount] at hn
      cases hcopy
      refine ⟨hdst, hsrc, hsize, hquiet, hn, Nat.zero_le _, [], huntouched.2, ?_⟩
      rw [huntouched.1]
      exact .nothing fun t j hj => absurd hj.2 (Nat.not_lt_zero j)
    · rename_i hn
      rw [hquiet.workerCount] at hn
      cases hcopy
      refine ⟨hdst, hsrc, hsize, hquiet, huntouched, hquiet.workerCount, ?_,
        (Nat.zero_mul _).symm, Nat.pos_of_ne_zero hn, fun j hj => absurd hj (Nat.not_lt_zero j)⟩
      exact congrArg₂ (· / ·) hsize hquiet.workerCount

/-- The owner copies a byte, or has copied all. -/
theorem copySelf (h : InCopy n call ⟨f, .copySelf k⟩ sh ws) (hme : n = 0 → me = .caller 0)
    (hcopy : Copy.copy me sh ⟨f, .copySelf k⟩ = some (sh', c')) :
    InCopy n call c' sh' ws := by
  obtain ⟨hdst, hsrc, hsize, hquiet, hn, hle, hself⟩ := h
  obtain rfl := hme hn
  simp only at hdst hsrc hsize
  simp only [Copy.copy, hdst, hsrc, hsize] at hcopy
  split at hcopy
  · rename_i hlt
    cases hcopy
    exact ⟨hdst, hsrc, hsize, hquiet.memory _ _, hn, hlt, hself.write hlt⟩
  · cases hcopy
    obtain rfl : k = call.size := by omega
    obtain rfl := hn
    exact ⟨hdst, hsrc, hsize, hquiet, rfl, hself.finished⟩

/-- The owner completes a job: the last one takes what the others leave over. -/
theorem writeSize (h : InCopy n call ⟨f, .writeSize i⟩ sh ws)
    (hcopy : Copy.copy me sh ⟨f, .writeSize i⟩ = some (sh', c')) :
    InCopy n call c' sh' ws := by
  obtain ⟨hdst, hsrc, hsize, hfill, hdst', hsrc'⟩ := h
  simp only at hsize
  simp only [Copy.copy] at hcopy
  split at hcopy
  · rename_i hlast
    rw [hfill.workers] at hlast
    cases hcopy
    refine ⟨hdst, hsrc, hsize, Filling.filled (hfill.setState ?_) hlast ?_⟩
    · exact fun _ => rfl
    rw [Shared.setState_self]
    refine ⟨hdst', hsrc', ?_⟩
    rw [hsize, hfill.offset, chunkSize, if_pos hlast, chunkStart]
  · rename_i hlast
    rw [hfill.workers] at hlast
    cases hcopy
    refine ⟨hdst, hsrc, hsize, Filling.next (hfill.setState ?_) hlast ?_⟩
    · exact fun _ => rfl
    rw [Shared.setState_self]
    refine ⟨hdst', hsrc', ?_⟩
    rw [hfill.share, chunkSize, if_neg hlast]

/-- The owner passes a worker that has completed the generation, or goes to wait for it; past the
last worker it returns. -/
theorem loadCompleted (h : InCopy n call ⟨f, .loadCompleted g i⟩ sh ws)
    (hcopy : Copy.copy me sh ⟨f, .loadCompleted g i⟩ = some (sh', c')) :
    InCopy n call c' sh' ws := by
  obtain ⟨hdst, hsrc, hsize, hwait⟩ := h
  have hcount : f.workerCount = n := hwait.workers
  simp only [Copy.copy, hcount] at hcopy
  split at hcopy
  · rename_i hi
    cases hcopy
    subst hi
    obtain ⟨hquiet, hfinished⟩ := hwait.finished
    exact ⟨hdst, hsrc, hsize, hquiet, hdst, hfinished⟩
  · rename_i hi
    split at hcopy
    · rename_i hdone
      cases hcopy
      exact ⟨hdst, hsrc, hsize, hwait.pass hi hdone⟩
    · cases hcopy
      have hle := hwait.index_le
      exact ⟨hdst, hsrc, hsize, hwait, by omega⟩

/-- The owner goes to sleep in `wait`, or returns from it. -/
theorem waitCompleted {v : Generation} (h : InCopy n call ⟨f, .waitCompleted g i v⟩ sh ws)
    (hcopy : Copy.copy me sh ⟨f, .waitCompleted g i v⟩ = some (sh', c')) :
    InCopy n call c' sh' ws := by
  obtain ⟨hdst, hsrc, hsize, hwait, hi⟩ := h
  simp only [Copy.copy] at hcopy
  split at hcopy
  · cases hcopy
  · split at hcopy
    · cases hcopy
      exact ⟨hdst, hsrc, hsize, ⟨hwait.toRunning.queues (.sleepOnCompleted i _), hwait.positive,
        hwait.generation, hwait.workers, hwait.passed, hwait.index_le⟩, hi⟩
    · cases hcopy
      exact ⟨hdst, hsrc, hsize, hwait⟩

/-- **A step of the thread that calls `copy`.** In a pool without workers that is the owner. -/
theorem copy (h : InCopy n call c sh ws) (hme : n = 0 → me = .caller 0)
    (hcopy : c.copy me sh = some (sh', c')) : InCopy n call c' sh' ws := by
  obtain ⟨f, pc⟩ := c
  have hpc := h.atPc
  cases pc with
  | enter => exact h.enter hcopy
  | copySelf k => exact h.copySelf hme hcopy
  | writeDst i =>
    cases hcopy
    refine ⟨h.dst, h.src, h.size, hpc.setState fun _ => rfl, ?_⟩
    rw [Shared.setState_self, hpc.offset, h.dst]
  | writeSrc i =>
    obtain ⟨hfill, hdst⟩ := hpc
    cases hcopy
    refine ⟨h.dst, h.src, h.size, hfill.setState fun _ => rfl, ?_, ?_⟩
    · rw [Shared.setState_self, hdst]
    · rw [Shared.setState_self, hfill.offset, h.src]
  | writeSize i => exact h.writeSize hcopy
  | loadGeneration =>
    cases hcopy
    exact ⟨h.dst, h.src, h.size, hpc, rfl⟩
  | storeGeneration g =>
    obtain ⟨hfilled, rfl⟩ := hpc
    cases hcopy
    exact ⟨h.dst, h.src, h.size, hfilled.announce⟩
  | notifyStart g =>
    cases hcopy
    exact ⟨h.dst, h.src, h.size, hpc.toRunning.queues .notifyAllStart, hpc.positive,
      hpc.generation, hpc.workers, hpc.passed, hpc.index_le⟩
  | loadCompleted g i => exact h.loadCompleted hcopy
  | waitCompleted g i v => exact h.waitCompleted hcopy
  | returning v => cases hcopy

end InCopy

/-! ## Steps of the others -/

/-- No thread of the pool will take another step. -/
structure Left (sh : Shared) (ws : ℕ → Worker) : Prop where
  undefined : sh.undefined = false
  left : ∀ i, ws i = .exited ∨ ws i = .absent

/-- A step that is not the owner's, or a wake-up: what it keeps in each situation of the pool. -/
structure Moves (n : ℕ) (call : Call) (sh : Shared) (ws : ℕ → Worker) (sh' : Shared)
    (ws' : ℕ → Worker) : Prop where
  standing : ∀ m, Standing m sh ws → sh.SameButQueues sh' ∧ Standing m sh' ws'
  quiet : ∀ m, Quiet n m sh ws → sh.SameButQueues sh' ∧ Quiet n m sh' ws'
  running : Running n call sh ws →
    Running n call sh' ws' ∧ sh'.startGeneration = sh.startGeneration ∧
      ∀ j, (sh.workerStates j).completedGeneration = sh.startGeneration →
        (sh'.workerStates j).completedGeneration = sh.startGeneration
  leaving : ∀ m, Leaving m sh ws → Leaving m sh' ws'
  left : Left sh ws → Left sh' ws'
  exited : ∀ j, ws j = .exited → ws' j = .exited

theorem Moves.worker (hstep : (ws i).step i sh = some (sh', w)) :
    Moves n call sh ws sh' (Function.update ws i w) where
  standing _ h := h.worker hstep
  quiet _ h := h.worker hstep
  running h := h.worker hstep
  leaving _ h := (h.worker hstep).2
  left h := by
    rcases h.left i with hw | hw <;> (rw [hw] at hstep; cases hstep)
  exited j hj := by
    rcases eq_or_ne j i with rfl | hne
    · rw [hj] at hstep
      cases hstep
    · rw [Function.update_of_ne hne, hj]

theorem Moves.queues (hsame : sh.SameButQueues sh') : Moves n call sh ws sh' ws where
  standing _ h := ⟨hsame, h.queues hsame⟩
  quiet _ h := ⟨hsame, h.queues hsame⟩
  running h := by
    have hrunning := h.queues hsame
    obtain ⟨q, rfl⟩ := hsame
    exact ⟨hrunning, rfl, fun _ hj => hj⟩
  leaving _ h := h.queues hsame
  left h := by
    obtain ⟨q, rfl⟩ := hsame
    exact ⟨h.undefined, h.left⟩
  exited _ hj := hj

variable {ws' : ℕ → Worker}

theorem Filling.move (h : Filling n call i f sh ws) (hm : Moves n call sh ws sh' ws') :
    sh.SameButQueues sh' ∧ Filling n call i f sh' ws' := by
  obtain ⟨hsame, hquiet⟩ := hm.quiet n h.toQuiet
  refine ⟨hsame, ?_⟩
  obtain ⟨q, rfl⟩ := hsame
  exact ⟨hquiet, h.untouched, h.workers, h.share, h.offset, h.index_lt, h.jobs⟩

theorem Filled.move (h : Filled n call f sh ws) (hm : Moves n call sh ws sh' ws') :
    sh.SameButQueues sh' ∧ Filled n call f sh' ws' := by
  obtain ⟨hsame, hquiet⟩ := hm.quiet n h.toQuiet
  refine ⟨hsame, ?_⟩
  obtain ⟨q, rfl⟩ := hsame
  exact ⟨hquiet, h.positive, h.untouched, h.workers, h.jobs⟩

theorem Awaiting.move (h : Awaiting n call g i f sh ws) (hm : Moves n call sh ws sh' ws') :
    Awaiting n call g i f sh' ws' := by
  obtain ⟨hrunning, hgeneration, hcompleted⟩ := hm.running h.toRunning
  refine ⟨hrunning, h.positive, hgeneration.trans h.generation, h.workers, fun j hj => ?_,
    h.index_le⟩
  rw [hgeneration]
  exact hcompleted j (h.passed j hj)

/-- Inside a call, the others keep what holds at the owner's place. -/
theorem InCopy.move {c : Copy} (h : InCopy n call c sh ws) (hm : Moves n call sh ws sh' ws') :
    InCopy n call c sh' ws' := by
  obtain ⟨f, pc⟩ := c
  obtain ⟨hdst, hsrc, hsize, hpc⟩ := h
  refine ⟨hdst, hsrc, hsize, ?_⟩
  cases pc with
  | enter =>
    obtain ⟨hsame, hquiet⟩ := hm.quiet n hpc.1
    obtain ⟨q, rfl⟩ := hsame
    exact ⟨hquiet, hpc.2⟩
  | copySelf k =>
    obtain ⟨hsame, hquiet⟩ := hm.quiet n hpc.1
    obtain ⟨q, rfl⟩ := hsame
    exact ⟨hquiet, hpc.2⟩
  | writeDst i => exact (Filling.move hpc hm).2
  | writeSrc i =>
    obtain ⟨hsame, hfill⟩ := hpc.1.move hm
    obtain ⟨q, rfl⟩ := hsame
    exact ⟨hfill, hpc.2⟩
  | writeSize i =>
    obtain ⟨hsame, hfill⟩ := hpc.1.move hm
    obtain ⟨q, rfl⟩ := hsame
    exact ⟨hfill, hpc.2⟩
  | loadGeneration => exact (Filled.move hpc hm).2
  | storeGeneration g =>
    obtain ⟨hsame, hfilled⟩ := hpc.1.move hm
    obtain ⟨q, rfl⟩ := hsame
    exact ⟨hfilled, hpc.2⟩
  | notifyStart g => exact Awaiting.move hpc hm
  | loadCompleted g i => exact Awaiting.move hpc hm
  | waitCompleted g i v => exact ⟨hpc.1.move hm, hpc.2⟩
  | returning v =>
    obtain ⟨hsame, hquiet⟩ := hm.quiet n hpc.1
    obtain ⟨q, rfl⟩ := hsame
    exact ⟨hquiet, hpc.2.1, hpc.2.2.equal, hpc.2.2.outside, hpc.2.2.written⟩

end Doost.Memcpy
