import Doost.Memcpy.ParallelCopy
import Doost.Memcpy.WakeUps

/-!
# Every job is executed once

An observer records the calls of `copy` with something to copy, and for each worker the `memcpy`s
that it makes. The invariant `Executions` says how far the workers have come with the last call:
a worker has made the `memcpy`s of its parts of all recorded calls, or of all but the last one
while that call is in progress and the worker has not begun its job.

`jobs_executed_once`: between two calls the two records agree, and a worker is inside a job only
while a call is in progress that has announced it; the owner leaves `stop_workers` after all
threads have, and no thread touches what is no longer there.
-/

namespace Doost.Memcpy

open SplitCopy Transition

/-! ## The record -/

/-- The arguments of a `memcpy`. -/
structure Transfer where
  dst : Address
  src : Address
  size : ℕ
  deriving DecidableEq

/-- The part of worker `i` in a copy on `n` workers. -/
def Transfer.part (n i : ℕ) (t : Transfer) : Transfer :=
  ⟨t.dst + chunkStart n t.size i, t.src + chunkStart n t.size i, chunkSize n t.size i⟩

/-- The calls of `copy` with something to copy, and the `memcpy`s of each worker, the newest
first. -/
structure History where
  calls : List Transfer
  copies : ℕ → List Transfer

/-- Worker `i` makes a `memcpy`. -/
def History.execute (h : History) (i : ℕ) (t : Transfer) : History :=
  { h with copies := Function.update h.copies i (t :: h.copies i) }

/-- What is recorded of a step: a call, or a `memcpy` with the arguments that the worker has read,
the size last. -/
def note (s : System) (l : Label) (h : History) : History :=
  match l with
  | .copy dst src size => if size = 0 then h else { h with calls := ⟨dst, src, size⟩ :: h.calls }
  | .worker i =>
    match s.workers i with
    | .readSize _ dst src => h.execute i ⟨dst, src, (s.shared.workerStates i).size⟩
    | _ => h
  | _ => h

/-- What has been recorded after the run of `ls` from the construction of a pool. -/
def history (n : ℕ) (memory : Address → Byte) (ls : List Label) : History :=
  record System.next note (System.start n memory) ⟨[], fun _ => []⟩ ls

/-! ## Who is in a job -/

/-- The worker has begun to read its job, or copies, or has not yet marked it as completed. -/
def Worker.InJob : Worker → Prop
  | readDst _ | readSrc _ _ | readSize _ _ _ | copyBytes _ _ _ _ _ | storeCompleted _ => True
  | _ => False

/-- The worker has made its `memcpy`, or is in it, and has not yet marked the job as completed. -/
def Worker.Copying : Worker → Prop
  | copyBytes _ _ _ _ _ | storeCompleted _ => True
  | _ => False

/-- Worker `i` has begun the `memcpy` of the announced generation. -/
def Begun (sh : Shared) (w : Worker) (i : ℕ) : Prop :=
  (sh.workerStates i).completedGeneration = sh.startGeneration ∨ w.Copying

/-- The arguments of the call. -/
def Copy.transfer (c : Copy) : Transfer :=
  ⟨c.frame.dst, c.frame.src, c.frame.size⟩

/-- The call with something to copy that is in progress. -/
def Owner.transfer : Owner → Option Transfer
  | .copying c =>
    match c.pc with
    | .enter => if c.frame.size = 0 then none else some c.transfer
    | .returning _ => none
    | _ => some c.transfer
  | _ => none

/-- The call has announced its generation, and waits for the workers. -/
def Owner.Announced : Owner → Prop
  | .copying c =>
    match c.pc with
    | .notifyStart _ | .loadCompleted _ _ | .waitCompleted _ _ _ => True
    | _ => False
  | _ => False

/-- A call is in progress whose `memcpy` worker `i` has not begun. -/
def System.Pending (s : System) (i : ℕ) : Prop :=
  s.owner.transfer ≠ none ∧ (s.owner.Announced → ¬ Begun s.shared (s.workers i) i)

/-- What the records have to do with the state. -/
structure Executions (n : ℕ) (s : System) (h : History) : Prop where
  current : ∀ t, s.owner.transfer = some t → ∃ earlier, h.calls = t :: earlier
  pending : ∀ i < n, s.Pending i → h.copies i = h.calls.tail.map (Transfer.part n i)
  executed : ∀ i < n, ¬ s.Pending i → h.copies i = h.calls.map (Transfer.part n i)
  others : ∀ i, n ≤ i → h.copies i = []

variable {n m i : ℕ} {call : Call} {me : Thread} {sh sh' : Shared} {ws ws' : ℕ → Worker}
  {w w' : Worker} {c c' : Copy} {s s' : System} {h : History}

theorem History.execute_self (t : Transfer) : (h.execute i t).copies i = t :: h.copies i :=
  Function.update_self ..

theorem History.execute_of_ne {j : ℕ} (hne : j ≠ i) (t : Transfer) :
    (h.execute i t).copies j = h.copies j :=
  Function.update_of_ne hne ..

/-! ## Where the pool is -/

theorem Worker.Resting.not_inJob {o : Generation} (h : w.Resting o) : ¬ w.InJob := by
  cases w <;> simp_all [Worker.Resting, Worker.InJob]

theorem Worker.Resting.not_copying {o : Generation} (h : w.Resting o) : ¬ w.Copying := by
  cases w <;> simp_all [Worker.Resting, Worker.Copying]

theorem Worker.Leaving.not_inJob (h : w.Leaving) : ¬ w.InJob := by
  cases w <;> simp_all [Worker.Leaving, Worker.InJob]

theorem Started.forall_not_inJob (h : Started m sh ws) (hws : ∀ i < m, ¬ (ws i).InJob) (i : ℕ) :
    ¬ (ws i).InJob := by
  rcases Nat.lt_or_ge i m with hi | hi
  · exact hws i hi
  · rw [h.absent i hi]
    exact id

theorem Standing.not_inJob (h : Standing m sh ws) : ∀ i, ¬ (ws i).InJob :=
  h.toStarted.forall_not_inJob fun i hi => (h.resting i hi).not_inJob

theorem Leaving.not_inJob (h : Leaving m sh ws) : ∀ i, ¬ (ws i).InJob :=
  h.toStarted.forall_not_inJob fun i hi => (h.leaving i hi).not_inJob

theorem Left.not_inJob (h : Left sh ws) (i : ℕ) : ¬ (ws i).InJob := by
  rcases h.left i with hw | hw <;> (rw [hw]; exact id)

/-- While a generation is announced the pool is running; otherwise no worker is in a job. -/
theorem Inv.running_or_not_inJob (h : Inv n call s) :
    (s.owner.Announced ∧ Running n call s.shared s.workers) ∨
      (¬ s.owner.Announced ∧ ∀ i, ¬ (s.workers i).InJob) := by
  obtain ⟨sh, owner, ws⟩ := s
  cases owner with
  | starting m pc =>
    cases pc with
    | setWorkerCount => exact Or.inr ⟨id, h.2.2.not_inJob⟩
    | allocateStates => exact Or.inr ⟨id, h.2.2.1.not_inJob⟩
    | reserveThreads => exact Or.inr ⟨id, h.2.2.toStanding.not_inJob⟩
    | createThread i => exact Or.inr ⟨id, h.2.2.toStanding.not_inJob⟩
  | idle =>
    have hquiet : Quiet n n sh ws := h
    exact Or.inr ⟨id, hquiet.toStanding.not_inJob⟩
  | copying c =>
    obtain ⟨f, pc⟩ := c
    have hpc := h.atPc
    cases pc with
    | enter => exact Or.inr ⟨id, hpc.1.toStanding.not_inJob⟩
    | copySelf k => exact Or.inr ⟨id, hpc.1.toStanding.not_inJob⟩
    | writeDst i => exact Or.inr ⟨id, hpc.toStanding.not_inJob⟩
    | writeSrc i => exact Or.inr ⟨id, hpc.1.toStanding.not_inJob⟩
    | writeSize i => exact Or.inr ⟨id, hpc.1.toStanding.not_inJob⟩
    | loadGeneration => exact Or.inr ⟨id, hpc.toStanding.not_inJob⟩
    | storeGeneration g => exact Or.inr ⟨id, hpc.1.toStanding.not_inJob⟩
    | notifyStart g => exact Or.inl ⟨trivial, hpc.toRunning⟩
    | loadCompleted g i => exact Or.inl ⟨trivial, hpc.toRunning⟩
    | waitCompleted g i v => exact Or.inl ⟨trivial, hpc.1.toRunning⟩
    | returning v => exact Or.inr ⟨id, hpc.1.toStanding.not_inJob⟩
  | stopping thrown pc =>
    cases pc with
    | storeStopping =>
      obtain ⟨m, hstanding⟩ := h
      exact Or.inr ⟨id, hstanding.not_inJob⟩
    | bumpGeneration =>
      obtain ⟨m, hleaving⟩ := h
      exact Or.inr ⟨id, hleaving.not_inJob⟩
    | notifyStart =>
      obtain ⟨m, hleaving⟩ := h
      exact Or.inr ⟨id, hleaving.not_inJob⟩
    | join i =>
      obtain ⟨m, hleaving, -⟩ := h
      exact Or.inr ⟨id, hleaving.not_inJob⟩
    | _ => exact Or.inr ⟨id, Left.not_inJob h⟩
  | gone thrown => exact Or.inr ⟨id, Left.not_inJob h⟩

/-! ## Steps of the workers -/

theorem note_worker (hw : ∀ g dst src, s.workers i ≠ .readSize g dst src) :
    note s (.worker i) h = h := by
  simp only [note]

theorem Worker.Resting.not_readSize {o : Generation} (h : w.Resting o) (g : Generation)
    (dst src : Address) : w ≠ .readSize g dst src := by
  rintro rfl
  exact h

/-- A worker that has not marked the generation as completed has begun its `memcpy` exactly if it
is copying. -/
theorem begun_iff_of_behind (hbehind : (sh.workerStates i).completedGeneration + 1 =
    sh.startGeneration) : Begun sh w i ↔ w.Copying := by
  have hne : (sh.workerStates i).completedGeneration ≠ sh.startGeneration := by
    intro heq
    rw [heq] at hbehind
    exact add_one_ne _ hbehind
  exact or_iff_right hne

/-- A step of a worker with a job begins its `memcpy`, or leaves it begun or not. -/
theorem Stage.begun {p : ℕ} (h : Stage sh.startGeneration (sh.workerStates i) w p)
    (hstop : sh.stopping = false) (hact : w.workerLoop i sh = some (sh', w')) :
    ((∀ g dst src, w ≠ .readSize g dst src) ∧ (Begun sh' w' i ↔ Begun sh w i)) ∨
      (w = .readSize sh.startGeneration (sh.workerStates i).dst (sh.workerStates i).src ∧
        ¬ Begun sh w i ∧ Begun sh' w' i) := by
  cases h with
  | waiting hbehind hrest =>
    left
    refine ⟨hrest.not_readSize, ?_⟩
    have hbefore : ¬ Begun sh w i := (begun_iff_of_behind hbehind).not.mpr hrest.not_copying
    obtain ⟨⟨q, rfl⟩, hrest' | ⟨rfl, -⟩⟩ := hrest.workerLoop hstop hact
    · exact iff_of_false ((begun_iff_of_behind hbehind).not.mpr hrest'.not_copying) hbefore
    · exact iff_of_false ((begun_iff_of_behind hbehind).not.mpr id) hbefore
  | announced hbehind =>
    simp only [Worker.workerLoop, hstop] at hact
    cases hact
    exact Or.inl ⟨by simp, Iff.rfl⟩
  | readDst hbehind =>
    cases hact
    exact Or.inl ⟨by simp, Iff.rfl⟩
  | readSrc hbehind =>
    cases hact
    exact Or.inl ⟨by simp, Iff.rfl⟩
  | readSize hbehind =>
    cases hact
    exact Or.inr ⟨rfl, (begun_iff_of_behind hbehind).not.mpr id, Or.inr trivial⟩
  | copying hbehind hk =>
    simp only [Worker.workerLoop] at hact
    split at hact <;> cases hact <;> exact Or.inl ⟨by simp, Iff.rfl⟩
  | copied hbehind =>
    cases hact
    exact Or.inl ⟨by simp, iff_of_true (Or.inl (by rw [Shared.setState_self]; rfl))
      (Or.inr trivial)⟩
  | finished hdone hrest =>
    left
    refine ⟨hrest.not_readSize, ?_⟩
    obtain ⟨⟨q, rfl⟩, -⟩ := hrest.workerLoop hstop hact
    exact iff_of_true (Or.inl hdone) (Or.inl hdone)

/-- A step of worker `i` does not touch the job of another worker. -/
theorem begun_worker_of_ne {j : ℕ} (hact : (ws i).workerLoop i sh = some (sh', w)) (hne : j ≠ i) :
    Begun sh' (Function.update ws i w j) j ↔ Begun sh (ws j) j := by
  have heffect := Worker.workerLoop_effect hact
  rw [Function.update_of_ne hne]
  unfold Begun
  rw [heffect.startGeneration, (heffect.others j hne).1]

namespace Executions

/-- A step that notes nothing and begins no `memcpy`. -/
theorem same (he : Executions n s h)
    (htransfer : ∀ t, s'.owner.transfer = some t → s.owner.transfer = some t)
    (hpending : ∀ i < n, s'.Pending i ↔ s.Pending i) : Executions n s' h where
  current t ht := he.current t (htransfer t ht)
  pending i hi hp := he.pending i hi ((hpending i hi).mp hp)
  executed i hi hp := he.executed i hi ((hpending i hi).not.mp hp)
  others := he.others

/-- Worker `i` begins its `memcpy`. -/
theorem begin (he : Executions n s h) (hi : i < n) (hp : s.Pending i) {t : Transfer}
    (ht : s.owner.transfer = some t) (howner : s'.owner = s.owner) (hdone : ¬ s'.Pending i)
    (hothers : ∀ j < n, j ≠ i → (s'.Pending j ↔ s.Pending j)) :
    Executions n s' (h.execute i (t.part n i)) where
  current u hu := he.current u (by rwa [howner] at hu)
  pending j hj hpj := by
    rcases eq_or_ne j i with rfl | hne
    · exact absurd hpj hdone
    · rw [History.execute_of_ne hne]
      exact he.pending j hj ((hothers j hj hne).mp hpj)
  executed j hj hpj := by
    rcases eq_or_ne j i with rfl | hne
    · obtain ⟨earlier, hcalls⟩ := he.current t ht
      rw [History.execute_self, he.pending j hj hp]
      simp only [History.execute, hcalls, List.tail_cons, List.map_cons]
    · rw [History.execute_of_ne hne]
      exact he.executed j hj ((hothers j hj hne).not.mp hpj)
  others j hj := by
    rw [History.execute_of_ne (by omega)]
    exact he.others j hj

end Executions

/-- Between announcements, the calls in progress have not been begun by any worker. -/
theorem System.pending_iff_transfer (hannounced : ¬ s.owner.Announced) :
    s.Pending i ↔ s.owner.transfer ≠ none :=
  and_iff_left fun h => absurd h hannounced

theorem System.pending_congr (howner : s'.owner = s.owner)
    (hbegun : s.owner.Announced →
      (Begun s'.shared (s'.workers i) i ↔ Begun s.shared (s.workers i) i)) :
    s'.Pending i ↔ s.Pending i := by
  unfold System.Pending
  rw [howner]
  exact and_congr_right fun _ => forall_congr' fun ha => not_congr (hbegun ha)

/-- The call in progress has the arguments of `call`. -/
theorem Inv.transfer_eq (h : Inv n call s) {t : Transfer} (ht : s.owner.transfer = some t) :
    t = ⟨call.dst, call.src, call.size⟩ := by
  obtain ⟨sh, owner, ws⟩ := s
  cases owner with
  | copying c =>
    have htransfer : t = c.transfer := by
      simp only [Owner.transfer] at ht
      split at ht
      · split at ht <;> cases ht
        rfl
      · cases ht
      · exact (Option.some.inj ht).symm
    have hcopy : InCopy n call c sh ws := h
    rw [htransfer, Copy.transfer, hcopy.dst, hcopy.src, hcopy.size]
  | _ => cases ht

theorem Owner.Announced.transfer {o : Owner} (h : o.Announced) : ∃ t, o.transfer = some t := by
  cases o with
  | copying c =>
    obtain ⟨f, pc⟩ := c
    cases pc with
    | notifyStart g | loadCompleted g i | waitCompleted g i v => exact ⟨_, rfl⟩
    | _ => exact absurd h id
  | _ => exact absurd h id

theorem Running.lt_of_workerLoop (h : Running n call sh ws)
    (hact : (ws i).workerLoop i sh = some (sh', w)) : i < n := by
  by_contra hge
  rw [h.absent i (by omega)] at hact
  cases hact

namespace Executions

theorem worker (he : Executions n s h) (hinv : Inv n call s) (hstep : s.workerStep i = some s') :
    Executions n s' (note s (.worker i) h) := by
  obtain ⟨sh', w, hact, rfl⟩ := hinv.workerStep hstep
  rcases hinv.running_or_not_inJob with ⟨hannounced, hrunning⟩ | ⟨hannounced, hjob⟩
  · have hi := hrunning.lt_of_workerLoop hact
    obtain ⟨p, new, hstages, -, -⟩ := hrunning.stages
    rcases (hstages i hi).begun hrunning.stopping hact with ⟨hnot, hiff⟩ | ⟨hw, hbefore, hafter⟩
    · rw [note_worker hnot]
      refine he.same (fun t ht => ht) fun j hj => System.pending_congr rfl fun _ => ?_
      rcases eq_or_ne j i with rfl | hne
      · simp only [Function.update_self]
        exact hiff
      · exact begun_worker_of_ne hact hne
    · obtain ⟨t, ht⟩ := hannounced.transfer
      have hjob := hrunning.job i hi
      have hnote : note s (.worker i) h = h.execute i (t.part n i) := by
        simp only [note, hw]
        rw [hinv.transfer_eq ht, Transfer.part, hjob.dst, hjob.src, hjob.size]
      rw [hnote]
      refine he.begin hi ⟨by simp [ht], fun _ => hbefore⟩ ht rfl (fun hp => ?_) fun j hj hne =>
        System.pending_congr rfl fun _ => begun_worker_of_ne hact hne
      have hnot := hp.2 hannounced
      simp only [Function.update_self] at hnot
      exact hnot hafter
  · have hnot : ∀ g dst src, s.workers i ≠ .readSize g dst src := by
      intro g dst src hw
      refine hjob i ?_
      rw [hw]
      trivial
    rw [note_worker hnot]
    exact he.same (fun t ht => ht) fun j hj =>
      System.pending_congr rfl fun ha => absurd ha hannounced

/-- Inside a call that has not announced its generation. -/
theorem quiet (he : Executions n ⟨sh, .copying c, ws⟩ h) (hbefore : ¬ (Owner.copying c).Announced)
    (hafter : ¬ (Owner.copying c').Announced)
    (hsame : (Owner.copying c').transfer = (Owner.copying c).transfer) :
    Executions n ⟨sh', .copying c', ws⟩ h := by
  refine he.same (fun t ht => hsame.symm.trans ht) fun i hi => ?_
  rw [System.pending_iff_transfer hafter, System.pending_iff_transfer hbefore]
  exact not_congr (by rw [hsame])

/-- A step of the owner inside `copy`. -/
theorem copy (he : Executions n ⟨sh, .copying c, ws⟩ h) (hcall : InCopy n call c sh ws)
    (hcopy : c.copy (.caller 0) sh = some (sh', c')) :
    Executions n ⟨sh', .copying c', ws⟩ h := by
  obtain ⟨f, pc⟩ := c
  have hpc := hcall.atPc
  cases pc with
  | enter =>
    simp only [Copy.copy] at hcopy
    split at hcopy
    · rename_i hzero
      cases hcopy
      refine he.quiet id id ?_
      simp only [Owner.transfer, if_pos hzero]
    · rename_i hsize
      have htransfer : (Owner.copying ⟨f, .enter⟩).transfer = some (Copy.transfer ⟨f, .enter⟩) := by
        simp only [Owner.transfer, if_neg hsize]
      split at hcopy <;> cases hcopy <;> exact he.quiet id id htransfer.symm
  | copySelf k =>
    obtain ⟨-, rfl, -, -⟩ := hpc
    simp only [Copy.copy] at hcopy
    split at hcopy <;> cases hcopy
    · exact he.quiet id id rfl
    · exact he.same (fun t ht => by cases ht) fun i hi => absurd hi (Nat.not_lt_zero i)
  | writeDst i | writeSrc i | loadGeneration =>
    cases hcopy
    exact he.quiet id id rfl
  | writeSize i =>
    simp only [Copy.copy] at hcopy
    split at hcopy <;> cases hcopy <;> exact he.quiet id id rfl
  | storeGeneration g =>
    -- no worker has begun the new generation
    obtain ⟨hfilled, rfl⟩ := hpc
    cases hcopy
    refine he.same (fun t ht => ht) fun i hi => ?_
    refine iff_of_true ⟨by simp [Owner.transfer], fun _ => ?_⟩
      ((System.pending_iff_transfer id).mpr (by simp [Owner.transfer]))
    have hbehind : (sh.workerStates i).completedGeneration + 1 = sh.startGeneration + 1 :=
      congrArg (· + 1) (hfilled.completed i hi)
    exact mt (begun_iff_of_behind (by exact hbehind)).mp (hfilled.resting i hi).not_copying
  | notifyStart g =>
    cases hcopy
    exact he.same (fun t ht => ht) fun i hi => Iff.rfl
  | loadCompleted g i =>
    have hcount : f.workerCount = n := hpc.workers
    simp only [Copy.copy, hcount] at hcopy
    split at hcopy
    · -- every worker has completed the generation
      rename_i hi
      subst hi
      cases hcopy
      refine he.same (fun t ht => by cases ht) fun j hj => iff_of_false (fun hp => hp.1 rfl) ?_
      exact fun hp => hp.2 trivial (Or.inl (hpc.passed j hj))
    · split at hcopy <;> cases hcopy <;> exact he.same (fun t ht => ht) fun i hi => Iff.rfl
  | waitCompleted g i v =>
    simp only [Copy.copy] at hcopy
    split at hcopy
    · cases hcopy
    · split at hcopy <;> cases hcopy <;> exact he.same (fun t ht => ht) fun i hi => Iff.rfl
  | returning v => cases hcopy

/-- A step outside a call. -/
theorem idle (he : Executions n s h) (hbefore : s.owner.transfer = none)
    (hafter : s'.owner.transfer = none) : Executions n s' h := by
  refine he.same (fun t ht => ?_) fun i hi => ?_
  · rw [hafter] at ht
    cases ht
  · exact iff_of_false (fun hp => hp.1 hafter) fun hp => hp.1 hbefore

theorem owner (he : Executions n s h) (hinv : Inv n call s) (hstep : s.ownerStep = some s') :
    Executions n s' h := by
  obtain ⟨sh, owner, ws⟩ := s
  cases owner with
  | starting m pc =>
    refine he.idle rfl ?_
    cases pc with
    | createThread i =>
      simp only [System.ownerStep, System.startWorkers] at hstep
      split at hstep <;> cases hstep <;> rfl
    | _ =>
      cases hstep
      rfl
  | idle => cases hstep
  | copying c =>
    simp only [System.ownerStep] at hstep
    split at hstep
    · rename_i v hpc
      obtain ⟨f, pc⟩ := c
      obtain rfl : pc = .returning v := hpc
      cases hstep
      exact he.idle rfl rfl
    · obtain ⟨r, hr, rfl⟩ := Option.map_eq_some_iff.mp hstep
      rw [Copy.step_eq_copy (InCopy.defined hinv)] at hr
      exact he.copy hinv hr
  | stopping thrown pc =>
    refine he.idle rfl ?_
    cases pc with
    | join i =>
      simp only [System.ownerStep, System.stopWorkers] at hstep
      split at hstep
      · cases hstep
        rfl
      · split at hstep <;> cases hstep
        rfl
    | _ =>
      cases hstep
      rfl
  | gone thrown => cases hstep

/-- A new call. -/
theorem newCall {dst src size : ℕ} (he : Executions n s h) (hinv : Inv n call s)
    (hstep : s.next (.copy dst src size) = some s') :
    Executions n s' (note s (.copy dst src size) h) := by
  simp only [System.next] at hstep
  split at hstep
  · obtain ⟨-, howner, rfl⟩ := hinv.between hstep
    obtain ⟨sh, owner, ws⟩ := s
    cases howner
    by_cases hsize : size = 0
    · simp only [note, if_pos hsize]
      exact he.idle rfl (if_pos hsize)
    · have htransfer : (Owner.copying (.call dst src size)).transfer = some ⟨dst, src, size⟩ :=
        if_neg hsize
      have hquiet : ∀ i, ¬ System.Pending ⟨sh, .idle, ws⟩ i := fun i hp => hp.1 rfl
      simp only [note, if_neg hsize]
      refine ⟨fun t ht => ?_, fun i hi _ => he.executed i hi (hquiet i), fun i hi hp => ?_,
        he.others⟩
      · obtain rfl := Option.some.inj (htransfer.symm.trans ht)
        exact ⟨h.calls, rfl⟩
      · refine absurd ((System.pending_iff_transfer id).mpr ?_) hp
        simp [htransfer]
  · cases hstep

theorem step {l : Label} (he : Executions n s h) (hinv : Inv n call s)
    (hstep : s.next l = some s') : Executions n s' (note s l h) := by
  cases l with
  | worker i => exact he.worker hinv hstep
  | owner => exact he.owner hinv hstep
  | throws =>
    obtain ⟨sh, owner, ws⟩ := s
    simp only [System.next, System.throwStep] at hstep
    split at hstep
    · cases hstep
      exact he.idle rfl rfl
    · cases hstep
      exact he.idle rfl rfl
    · split at hstep <;> cases hstep
      exact he.idle rfl rfl
    · cases hstep
  | copy dst src size => exact he.newCall hinv hstep
  | destroy | client address byte =>
    simp only [System.next] at hstep
    obtain ⟨-, howner, rfl⟩ := hinv.between hstep
    obtain ⟨sh, owner, ws⟩ := s
    cases howner
    exact he.idle rfl rfl
  | wake t =>
    cases hstep
    exact he.same (fun t ht => ht) fun i hi => Iff.rfl

end Executions

/-! ## Every run -/

/-- The threads have been joined, in `stop_workers` or before. -/
def Owner.Joined : Owner → Prop
  | .stopping _ .storeStopping | .stopping _ .bumpGeneration | .stopping _ .notifyStart
  | .stopping _ (.join _) => False
  | .stopping _ _ | .gone _ => True
  | _ => False

theorem Inv.left_of_joined (hinv : Inv n call s) (hjoined : s.owner.Joined) :
    Left s.shared s.workers := by
  obtain ⟨sh, owner, ws⟩ := s
  cases owner with
  | stopping thrown pc =>
    cases pc with
    | storeStopping | bumpGeneration | notifyStart | join i => exact absurd hjoined id
    | _ => exact hinv
  | gone thrown => exact hinv
  | _ => exact absurd hjoined id

/-- What the next step of a worker touches is there. -/
theorem Inv.worker_defined (hinv : Inv n call s) (i : ℕ) :
    (s.workers i).defined i s.shared = true := by
  rcases hinv.started_or_left with ⟨m, hstarted⟩ | hleft
  · rcases Nat.lt_or_ge i m with hi | hi
    · exact Worker.defined_of_alive hstarted.deleted (hi.trans_le hstarted.threads_le)
    · rw [hstarted.absent i hi]
      rfl
  · rcases hleft.left i with hw | hw <;> (rw [hw]; rfl)

theorem executions_of_run {memory : Address → Byte} {ls : List Label}
    (hrun : run System.next (System.start n memory) ls = some s) :
    ∃ call, Inv n call s ∧ Executions n s (history n memory ls) := by
  have hstep : ∀ s l s' h, ((∃ call, Inv n call s) ∧ Executions n s h) → s.next l = some s' →
      (∃ call, Inv n call s') ∧ Executions n s' (note s l h) := by
    rintro s l s' h ⟨⟨call, hinv⟩, he⟩ hnext
    exact ⟨hinv.exists_next hnext, he.step hinv hnext⟩
  have hempty : Separate 0 0 0 := Or.inl le_rfl
  have hstart : Executions n (System.start n memory) ⟨[], fun _ => []⟩ :=
    ⟨fun t ht => (by cases ht), fun _ _ _ => rfl, fun _ _ _ => rfl, fun _ _ => rfl⟩
  obtain ⟨⟨call, hinv⟩, he⟩ := record_invariant hstep
    ⟨⟨_, inv_start n ⟨0, 0, 0, hempty, memory, []⟩ memory⟩, hstart⟩ hrun
  exact ⟨call, hinv, he⟩

/-- **Every job is executed once, and no worker outlives the pool.** In every reachable state of a
pool constructed for `n` workers, whether or not a step of the constructor has thrown:

* outside a call, each worker has made one `memcpy` for each call so far that had something to
  copy, in the order of the calls, with its part of the call; during a call, it has done so for all
  calls but this one, or for all;
* a worker is inside a job only while a call that has announced it is in progress;
* once the owner has joined the threads, every worker that was created has left `worker_loop`;
* no step has touched a worker's state or the pool when it was not there, and none is about to. -/
theorem jobs_executed_once {memory : Address → Byte} {ls : List Label}
    (hrun : run System.next (System.start n memory) ls = some s) :
    (∀ i < n,
      (s.owner.transfer = none →
        (history n memory ls).copies i = (history n memory ls).calls.map (Transfer.part n i)) ∧
      ∀ t, s.owner.transfer = some t → ∃ earlier, (history n memory ls).calls = t :: earlier ∧
        ((history n memory ls).copies i = earlier.map (Transfer.part n i) ∨
          (history n memory ls).copies i = (t :: earlier).map (Transfer.part n i))) ∧
      (∀ i, n ≤ i → (history n memory ls).copies i = []) ∧
      (∀ i, (s.workers i).InJob → s.owner.Announced ∧ ∃ t, s.owner.transfer = some t) ∧
      (s.owner.Joined → ∀ i, s.workers i = .exited ∨ s.workers i = .absent) ∧
      s.shared.undefined = false ∧ ∀ i, (s.workers i).defined i s.shared = true := by
  obtain ⟨call, hinv, he⟩ := executions_of_run hrun
  refine ⟨fun i hi => ⟨fun hnone => ?_, fun t ht => ?_⟩, he.others, fun i hjob => ?_,
    fun hjoined => (hinv.left_of_joined hjoined).left, hinv.undefined, hinv.worker_defined⟩
  · exact he.executed i hi fun hp => hp.1 hnone
  · obtain ⟨earlier, hcalls⟩ := he.current t ht
    refine ⟨earlier, hcalls, ?_⟩
    by_cases hp : s.Pending i
    · left
      rw [he.pending i hi hp, hcalls, List.tail_cons]
    · right
      rw [he.executed i hi hp, hcalls]
  · rcases hinv.running_or_not_inJob with ⟨hannounced, -⟩ | ⟨-, hnot⟩
    · exact ⟨hannounced, hannounced.transfer⟩
    · exact absurd hjob (hnot i)

/-- A pool of two workers is constructed, makes a copy, and is destroyed. -/
def copyAndDestroy : List Label :=
  constructTwo ++ [.copy 20 10 3] ++ copyOnTwo ++ [.owner, .destroy] ++ List.replicate 3 .owner ++
    [.worker 0, .worker 0, .worker 1, .worker 1] ++ List.replicate 8 .owner

theorem jobs_executed_once_twoWorkers :
    ∃ s, run System.next (System.start 2 (BitVec.ofNat 8)) copyAndDestroy = some s ∧
      s.owner = .gone false ∧
      (∀ i < 2, (history 2 (BitVec.ofNat 8) copyAndDestroy).copies i =
        (history 2 (BitVec.ofNat 8) copyAndDestroy).calls.map (Transfer.part 2 i)) ∧
      ∀ i, s.workers i = .exited ∨ s.workers i = .absent := by
  have hfacts : (run System.next (System.start 2 (BitVec.ofNat 8)) copyAndDestroy).map
      (fun s => s.owner) = some (.gone false) := by rfl
  obtain ⟨s, hs, howner⟩ := Option.map_eq_some_iff.mp hfacts
  obtain ⟨hexecuted, -, -, hjoined, -⟩ := jobs_executed_once hs
  refine ⟨s, hs, howner, fun i hi => (hexecuted i hi).1 ?_, hjoined ?_⟩
  · rw [howner]
    rfl
  · rw [howner]
    trivial

end Doost.Memcpy
