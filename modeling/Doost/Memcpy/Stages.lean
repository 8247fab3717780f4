import Doost.Foundations.SplitCopy
import Doost.Memcpy.Lifetime

/-!
# What the workers do in each situation of the pool

* `Standing`: every worker rests at the current generation. This is so from the creation of a
  worker to the first `copy`, and between two announcements; `Quiet` adds that every worker has
  completed the current generation.
* `Running`: the owner has announced a generation. Each worker is in one of the stages of its job
  (`Stage`): it has not seen the generation, is reading the job, has copied some bytes, or has
  completed the generation. The memory is that of the call with the bytes of all stages moved.
* `Leaving`: `stopping` is set, and no worker starts another job.

A step of a worker keeps each of them (`Standing.worker`, `Running.worker`, `Leaving.worker`).
-/

namespace Doost.Memcpy

open SplitCopy

/-! ## One job -/

/-- The stages of a job of the generation `g`, for a worker whose state is `st`, with the number of
bytes that the worker has copied for it. -/
inductive Stage (g : Generation) (st : WorkerState) : Worker → ℕ → Prop
  /-- The worker rests at the generation before `g`. -/
  | waiting {w : Worker} (hbehind : st.completedGeneration + 1 = g)
      (hrest : w.Resting st.completedGeneration) : Stage g st w 0
  | announced (hbehind : st.completedGeneration + 1 = g) : Stage g st (.checkStoppingAgain g) 0
  | readDst (hbehind : st.completedGeneration + 1 = g) : Stage g st (.readDst g) 0
  | readSrc (hbehind : st.completedGeneration + 1 = g) : Stage g st (.readSrc g st.dst) 0
  | readSize (hbehind : st.completedGeneration + 1 = g) : Stage g st (.readSize g st.dst st.src) 0
  | copying {k : ℕ} (hbehind : st.completedGeneration + 1 = g) (hk : k ≤ st.size) :
      Stage g st (.copyBytes g st.dst st.src st.size k) k
  | copied (hbehind : st.completedGeneration + 1 = g) : Stage g st (.storeCompleted g) st.size
  | finished {w : Worker} (hdone : st.completedGeneration = g) (hrest : w.Resting g) :
      Stage g st w st.size

theorem add_one_ne (g : Generation) : g + 1 ≠ g := by simp

namespace Stage

variable {g : Generation} {st : WorkerState} {w w' : Worker} {p index : ℕ} {s s' : Shared}

theorem progress_le (h : Stage g st w p) : p ≤ st.size := by
  cases h <;> omega

/-- A worker that has completed the generation has copied its chunk, and rests. -/
theorem of_completed (h : Stage g st w p) (hdone : st.completedGeneration = g) :
    w.Resting g ∧ p = st.size := by
  subst hdone
  cases h with
  | finished _ hrest => exact ⟨hrest, rfl⟩
  | _ => exact absurd ‹_› (add_one_ne _)

/-- A step of a worker with a job: it changes nothing but who is blocked, or copies the next byte
of the job, or completes the generation. -/
theorem workerLoop (h : Stage s.startGeneration (s.workerStates index) w p)
    (hstop : s.stopping = false) (hact : w.workerLoop index s = some (s', w')) :
    (s.SameButQueues s' ∧ Stage s.startGeneration (s.workerStates index) w' p) ∨
      (p < (s.workerStates index).size ∧
        s' = s.writeByte (.worker index) ((s.workerStates index).dst + p)
          (s.memory ((s.workerStates index).src + p)) ∧
        Stage s.startGeneration (s.workerStates index) w' (p + 1)) ∨
      (p = (s.workerStates index).size ∧
        s' = s.setState index
          (fun state => { state with completedGeneration := s.startGeneration }) ∧
        w'.Resting s.startGeneration) := by
  cases h with
  | waiting hbehind hrest =>
    obtain ⟨hsame, hrest' | ⟨rfl, -⟩⟩ := hrest.workerLoop hstop hact
    · exact Or.inl ⟨hsame, .waiting hbehind hrest'⟩
    · exact Or.inl ⟨hsame, .announced hbehind⟩
  | announced hbehind =>
    simp only [Worker.workerLoop, hstop] at hact
    cases hact
    exact Or.inl ⟨.refl, .readDst hbehind⟩
  | readDst hbehind =>
    cases hact
    exact Or.inl ⟨.refl, .readSrc hbehind⟩
  | readSrc hbehind =>
    cases hact
    exact Or.inl ⟨.refl, .readSize hbehind⟩
  | readSize hbehind =>
    cases hact
    exact Or.inl ⟨.refl, .copying hbehind (Nat.zero_le _)⟩
  | copying hbehind hk =>
    simp only [Worker.workerLoop] at hact
    split at hact
    · rename_i hlt
      cases hact
      exact Or.inr (Or.inl ⟨hlt, rfl, .copying hbehind hlt⟩)
    · cases hact
      obtain rfl : p = (s.workerStates index).size := by omega
      exact Or.inl ⟨.refl, .copied hbehind⟩
  | copied hbehind =>
    cases hact
    exact Or.inr (Or.inr ⟨rfl, rfl, rfl⟩)
  | finished hdone hrest =>
    obtain ⟨hsame, hrest' | ⟨-, hne⟩⟩ := hrest.workerLoop hstop hact
    · exact Or.inl ⟨hsame, .finished hdone hrest'⟩
    · exact absurd rfl hne

end Stage

/-! ## The situations of the pool -/

/-- The first `m` threads of a pool that is there have been created. -/
structure Started (m : ℕ) (sh : Shared) (ws : ℕ → Worker) : Prop where
  threads : sh.threads = m
  threads_le : m ≤ sh.stateCount
  deleted : sh.deleted = false
  undefined : sh.undefined = false
  absent : ∀ i, m ≤ i → ws i = .absent

/-- Every worker rests at the current generation. -/
structure Standing (m : ℕ) (sh : Shared) (ws : ℕ → Worker) : Prop extends Started m sh ws where
  stopping : sh.stopping = false
  resting : ∀ i < m, (ws i).Resting sh.startGeneration

/-- `n` states have been allocated and `m` workers created, and all have completed the current
generation. -/
structure Quiet (n m : ℕ) (sh : Shared) (ws : ℕ → Worker) : Prop extends Standing m sh ws where
  workerCount : sh.workerCount = n
  stateCount : sh.stateCount = n
  completed : ∀ i < n, (sh.workerStates i).completedGeneration = sh.startGeneration

/-- A worker that starts no more jobs once `stopping` is set. -/
def Worker.Leaving : Worker → Prop
  | enter | loadGeneration _ | checkStopping _ | waitStart _ | checkStoppingAgain _
  | notifyCaller _ | exited => True
  | _ => False

/-- `stopping` is set, and no worker is in a job. -/
structure Leaving (m : ℕ) (sh : Shared) (ws : ℕ → Worker) : Prop extends Started m sh ws where
  stopping : sh.stopping = true
  leaving : ∀ i < m, (ws i).Leaving

/-- A call `copy(dst, src, size)`, with the memory and the log of byte writes when it was made. -/
structure Call where
  dst : Address
  src : Address
  size : ℕ
  separate : Separate dst src size
  memory : Address → Byte
  writes : List (Thread × Address)

/-- The state of worker `i` holds its part of the call. -/
structure Job (n : ℕ) (call : Call) (i : ℕ) (st : WorkerState) : Prop where
  dst : st.dst = call.dst + chunkStart n call.size i
  src : st.src = call.src + chunkStart n call.size i
  size : st.size = chunkSize n call.size i

/-- Worker `i` has moved the first `p i` bytes of its chunk. -/
def Wrote (n : ℕ) (call : Call) (p : ℕ → ℕ) (t : Thread) (k : ℕ) : Prop :=
  ∃ i < n, t = .worker i ∧ chunkStart n call.size i ≤ k ∧ k < chunkStart n call.size i + p i

/-- The current generation has been announced to `n` workers, for the call. -/
structure Running (n : ℕ) (call : Call) (sh : Shared) (ws : ℕ → Worker) : Prop extends
    Started n sh ws where
  stopping : sh.stopping = false
  workerCount : sh.workerCount = n
  stateCount : sh.stateCount = n
  job : ∀ i < n, Job n call i (sh.workerStates i)
  stages : ∃ p new, (∀ i < n, Stage sh.startGeneration (sh.workerStates i) (ws i) (p i)) ∧
    sh.writes = new ++ call.writes ∧
    Copied call.memory call.dst call.src (Wrote n call p) sh.memory new

/-! ## A change of the queues -/

variable {n m i : ℕ} {call : Call} {sh sh' : Shared} {ws : ℕ → Worker} {w : Worker}

section Queues

variable (hsame : sh.SameButQueues sh')
include hsame

theorem Started.queues (h : Started m sh ws) : Started m sh' ws := by
  obtain ⟨q, rfl⟩ := hsame
  exact ⟨h.threads, h.threads_le, h.deleted, h.undefined, h.absent⟩

theorem Standing.queues (h : Standing m sh ws) : Standing m sh' ws := by
  have hstarted := h.toStarted.queues hsame
  obtain ⟨q, rfl⟩ := hsame
  exact ⟨hstarted, h.stopping, h.resting⟩

theorem Quiet.queues (h : Quiet n m sh ws) : Quiet n m sh' ws := by
  have hstanding := h.toStanding.queues hsame
  obtain ⟨q, rfl⟩ := hsame
  exact ⟨hstanding, h.workerCount, h.stateCount, h.completed⟩

theorem Leaving.queues (h : Leaving m sh ws) : Leaving m sh' ws := by
  have hstarted := h.toStarted.queues hsame
  obtain ⟨q, rfl⟩ := hsame
  exact ⟨hstarted, h.stopping, h.leaving⟩

theorem Running.queues (h : Running n call sh ws) : Running n call sh' ws := by
  have hstarted := h.toStarted.queues hsame
  obtain ⟨q, rfl⟩ := hsame
  exact ⟨hstarted, h.stopping, h.workerCount, h.stateCount, h.job, h.stages⟩

end Queues

/-! ## A change of the memory or of a job -/

theorem Started.memory (h : Started m sh ws) (memory : Address → Byte)
    (writes : List (Thread × Address)) :
    Started m { sh with memory := memory, writes := writes } ws :=
  ⟨h.threads, h.threads_le, h.deleted, h.undefined, h.absent⟩

theorem Quiet.memory (h : Quiet n m sh ws) (memory : Address → Byte)
    (writes : List (Thread × Address)) :
    Quiet n m { sh with memory := memory, writes := writes } ws :=
  ⟨⟨h.toStarted.memory memory writes, h.stopping, h.resting⟩, h.workerCount, h.stateCount,
    h.completed⟩

theorem Started.setState (h : Started m sh ws) (i : ℕ) (f : WorkerState → WorkerState) :
    Started m (sh.setState i f) ws :=
  ⟨h.threads, h.threads_le, h.deleted, h.undefined, h.absent⟩

/-! ## A step of a worker without a job -/

/-- Only a created worker takes steps, and they are defined. -/
theorem Started.step (h : Started m sh ws) (hstep : (ws i).step i sh = some (sh', w)) :
    i < m ∧ (ws i).workerLoop i sh = some (sh', w) := by
  rcases Nat.lt_or_ge i m with hi | hi
  · have hdefined := Worker.defined_of_alive (w := ws i) h.deleted (hi.trans_le h.threads_le)
    rw [Worker.step_eq_workerLoop hdefined] at hstep
    exact ⟨hi, hstep⟩
  · rw [h.absent i hi] at hstep
    cases hstep

theorem Started.update (h : Started m sh ws) (hi : i < m) :
    Started m sh (Function.update ws i w) := by
  refine ⟨h.threads, h.threads_le, h.deleted, h.undefined, fun j hj => ?_⟩
  rw [Function.update_of_ne (by omega)]
  exact h.absent j hj

theorem forall_update {P : ℕ → Worker → Prop} (h : ∀ j < m, P j (ws j)) (hw : P i w) :
    ∀ j < m, P j (Function.update ws i w j) := by
  intro j hj
  rcases eq_or_ne j i with rfl | hne
  · rwa [Function.update_self]
  · rw [Function.update_of_ne hne]
    exact h j hj

theorem Standing.worker (h : Standing m sh ws) (hstep : (ws i).step i sh = some (sh', w)) :
    sh.SameButQueues sh' ∧ Standing m sh' (Function.update ws i w) := by
  obtain ⟨hi, hact⟩ := h.step hstep
  obtain ⟨hsame, hrest | ⟨-, hne⟩⟩ := (h.resting i hi).workerLoop h.stopping hact
  · have hupdated : Standing m sh (Function.update ws i w) :=
      ⟨h.update hi, h.stopping, forall_update (P := fun _ w => w.Resting _) h.resting hrest⟩
    exact ⟨hsame, hupdated.queues hsame⟩
  · exact absurd rfl hne

theorem Quiet.worker (h : Quiet n m sh ws) (hstep : (ws i).step i sh = some (sh', w)) :
    sh.SameButQueues sh' ∧ Quiet n m sh' (Function.update ws i w) := by
  obtain ⟨hsame, hstanding⟩ := h.toStanding.worker hstep
  refine ⟨hsame, ?_⟩
  obtain ⟨q, rfl⟩ := hsame
  exact ⟨hstanding, h.workerCount, h.stateCount, h.completed⟩

theorem Worker.Leaving.workerLoop (h : (ws i).Leaving) (hstop : sh.stopping = true)
    (hact : (ws i).workerLoop i sh = some (sh', w)) : sh.SameButQueues sh' ∧ w.Leaving := by
  cases hw : ws i with
  | enter =>
    rw [hw] at hact
    cases hact
    exact ⟨.refl, trivial⟩
  | loadGeneration o =>
    simp only [hw, Worker.workerLoop] at hact
    split at hact <;> cases hact <;> exact ⟨.refl, trivial⟩
  | checkStopping o =>
    simp only [hw, Worker.workerLoop, hstop] at hact
    cases hact
    exact ⟨.refl, trivial⟩
  | waitStart o =>
    simp only [hw, Worker.workerLoop] at hact
    split at hact
    · cases hact
    · split at hact <;> cases hact
      · exact ⟨.sleepOnStart _, trivial⟩
      · exact ⟨.refl, trivial⟩
  | checkStoppingAgain g =>
    simp only [hw, Worker.workerLoop, hstop] at hact
    cases hact
    exact ⟨.refl, trivial⟩
  | notifyCaller g =>
    rw [hw] at hact
    cases hact
    exact ⟨.notifyOneCompleted i, trivial⟩
  | exited =>
    rw [hw] at hact
    cases hact
  | _ =>
    rw [hw] at h
    exact absurd h id

theorem Leaving.worker (h : Leaving m sh ws) (hstep : (ws i).step i sh = some (sh', w)) :
    sh.SameButQueues sh' ∧ Leaving m sh' (Function.update ws i w) := by
  obtain ⟨hi, hact⟩ := h.step hstep
  obtain ⟨hsame, hleaving⟩ := (h.leaving i hi).workerLoop h.stopping hact
  have hupdated : Leaving m sh (Function.update ws i w) :=
    ⟨h.update hi, h.stopping, forall_update (P := fun _ w => w.Leaving) h.leaving hleaving⟩
  exact ⟨hsame, hupdated.queues hsame⟩

/-! ## A step of a worker with a job -/

variable {p : ℕ → ℕ}

/-- A worker stays in its chunk. -/
theorem Wrote.lt (hp : ∀ i < n, p i ≤ chunkSize n call.size i) {t : Thread} {k : ℕ}
    (h : Wrote n call p t k) : k < call.size := by
  obtain ⟨i, hi, -, -, hlt⟩ := h
  have hend : chunkStart n call.size i + chunkSize n call.size i ≤ call.size := chunk_end_le hi
  have := hp i hi
  omega

/-- The next byte of a chunk has not been moved. -/
theorem Wrote.fresh (hp : ∀ i < n, p i ≤ chunkSize n call.size i) (hi : i < n)
    (hlt : p i < chunkSize n call.size i) (t : Thread) :
    ¬ Wrote n call p t (chunkStart n call.size i + p i) := by
  rintro ⟨j, hj, -, hle, hlt'⟩
  have hpj := hp j hj
  obtain rfl : j = i :=
    chunk_unique (k := chunkStart n call.size i + p i) hj hi ⟨hle, by omega⟩ ⟨by omega, by omega⟩
  omega

/-- Worker `i` has moved one byte more. -/
theorem Wrote.update_iff (hi : i < n) (t : Thread) (k : ℕ) :
    Wrote n call (Function.update p i (p i + 1)) t k ↔
      Wrote n call p t k ∨ (t = .worker i ∧ k = chunkStart n call.size i + p i) := by
  constructor
  · rintro ⟨j, hj, rfl, hle, hlt⟩
    rcases eq_or_ne j i with rfl | hne
    · rw [Function.update_self] at hlt
      rcases Nat.lt_or_ge k (chunkStart n call.size j + p j) with h | h
      · exact Or.inl ⟨j, hj, rfl, hle, h⟩
      · exact Or.inr ⟨rfl, by omega⟩
    · rw [Function.update_of_ne hne] at hlt
      exact Or.inl ⟨j, hj, rfl, hle, hlt⟩
  · rintro (⟨j, hj, rfl, hle, hlt⟩ | ⟨rfl, rfl⟩)
    · refine ⟨j, hj, rfl, hle, ?_⟩
      rcases eq_or_ne j i with rfl | hne
      · rw [Function.update_self]
        omega
      · rwa [Function.update_of_ne hne]
    · exact ⟨i, hi, rfl, by omega, by rw [Function.update_self]; omega⟩

/-- Worker `i` moves the next byte of its chunk. -/
theorem Wrote.copied {new : List (Thread × Address)} (hp : ∀ i < n, p i ≤ chunkSize n call.size i)
    (hi : i < n) (hlt : p i < chunkSize n call.size i)
    (h : Copied call.memory call.dst call.src (Wrote n call p) sh.memory new) :
    Copied call.memory call.dst call.src (Wrote n call (Function.update p i (p i + 1)))
      (Function.update sh.memory (call.dst + (chunkStart n call.size i + p i))
        (sh.memory (call.src + (chunkStart n call.size i + p i))))
      ((.worker i, call.dst + (chunkStart n call.size i + p i)) :: new) := by
  refine h.write (Wrote.fresh hp hi hlt) (fun t k hk => ?_) (Wrote.update_iff hi)
  have hk := Wrote.lt hp hk
  have hend : chunkStart n call.size i + chunkSize n call.size i ≤ call.size := chunk_end_le hi
  have hseparate := call.separate
  unfold Separate at hseparate
  omega

namespace Running

variable (h : Running n call sh ws)
include h

/-- No worker is past the end of its chunk. -/
theorem progress_le {g : Generation}
    (hstages : ∀ i < n, Stage g (sh.workerStates i) (ws i) (p i)) (i : ℕ) (hi : i < n) :
    p i ≤ chunkSize n call.size i := by
  rw [← (h.job i hi).size]
  exact (hstages i hi).progress_le

/-- A step of a worker keeps the pool running, and takes back no completed generation. -/
theorem worker (hstep : (ws i).step i sh = some (sh', w)) :
    Running n call sh' (Function.update ws i w) ∧ sh'.startGeneration = sh.startGeneration ∧
      ∀ j, (sh.workerStates j).completedGeneration = sh.startGeneration →
        (sh'.workerStates j).completedGeneration = sh.startGeneration := by
  obtain ⟨hi, hact⟩ := h.step hstep
  obtain ⟨p, new, hstages, hwrites, hcopied⟩ := h.stages
  have hupdate := h.toStarted.update (w := w) hi
  rcases (hstages i hi).workerLoop h.stopping hact with ⟨hsame, hstage⟩ | ⟨hlt, rfl, hstage⟩ |
    ⟨hall, rfl, hrest⟩
  · have hrunning : Running n call sh (Function.update ws i w) :=
      ⟨hupdate, h.stopping, h.workerCount, h.stateCount, h.job, p, new,
        forall_update (P := fun j w => Stage _ _ w (p j)) hstages hstage, hwrites, hcopied⟩
    obtain ⟨q, rfl⟩ := hsame
    exact ⟨hrunning.queues ⟨q, rfl⟩, rfl, fun _ hj => hj⟩
  · have hjob := h.job i hi
    rw [hjob.size] at hlt
    rw [hjob.dst, hjob.src, Nat.add_assoc, Nat.add_assoc]
    have hmoved := Wrote.copied (h.progress_le hstages) hi hlt hcopied
    refine ⟨⟨hupdate.memory _ _, h.stopping, h.workerCount, h.stateCount, h.job,
      Function.update p i (p i + 1), _, fun j hj => ?_, congrArg _ hwrites, hmoved⟩, rfl,
      fun _ hj => hj⟩
    rcases eq_or_ne j i with rfl | hne
    · rw [Function.update_self, Function.update_self]
      exact hstage
    · rw [Function.update_of_ne hne, Function.update_of_ne hne]
      exact hstages j hj
  · refine ⟨⟨hupdate.setState i _, h.stopping, h.workerCount, h.stateCount, fun j hj => ?_, p, new,
      fun j hj => ?_, hwrites, hcopied⟩, rfl, fun j hj => ?_⟩
    · rcases eq_or_ne j i with rfl | hne
      · rw [Shared.setState_self]
        exact ⟨(h.job j hj).dst, (h.job j hj).src, (h.job j hj).size⟩
      · rw [Shared.setState_of_ne hne]
        exact h.job j hj
    · rcases eq_or_ne j i with rfl | hne
      · rw [Shared.setState_self, Function.update_self, hall]
        exact .finished rfl hrest
      · rw [Shared.setState_of_ne hne, Function.update_of_ne hne]
        exact hstages j hj
    · rcases eq_or_ne j i with rfl | hne
      · rw [Shared.setState_self]
      · rwa [Shared.setState_of_ne hne]

/-- Once every worker has completed the generation the pool is quiet, and the bytes of all chunks
have been moved. -/
theorem complete
    (hdone : ∀ i < n, (sh.workerStates i).completedGeneration = sh.startGeneration) :
    Quiet n n sh ws ∧ ∃ new, sh.writes = new ++ call.writes ∧
      Copied call.memory call.dst call.src (Wrote n call (chunkSize n call.size)) sh.memory
        new := by
  obtain ⟨p, new, hstages, hwrites, hcopied⟩ := h.stages
  have hrests : ∀ i < n, (ws i).Resting sh.startGeneration := fun i hi =>
    ((hstages i hi).of_completed (hdone i hi)).1
  have hp : ∀ i < n, p i = chunkSize n call.size i := by
    intro i hi
    rw [((hstages i hi).of_completed (hdone i hi)).2, (h.job i hi).size]
  refine ⟨⟨⟨h.toStarted, h.stopping, hrests⟩, h.workerCount, h.stateCount, hdone⟩, new, hwrites,
    hcopied.congr fun t k => ?_⟩
  constructor
  · rintro ⟨i, hi, ht, hle, hlt⟩
    exact ⟨i, hi, ht, hle, by rwa [hp i hi]⟩
  · rintro ⟨i, hi, ht, hle, hlt⟩
    exact ⟨i, hi, ht, hle, by rwa [← hp i hi]⟩

end Running

end Doost.Memcpy
