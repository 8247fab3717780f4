import Doost.Memcpy.Handshake

/-!
# The invariant of the pool

`Inv n call s` says what holds at each place of the owner of a pool of `n` workers, from the
constructor to the destructor; `call` is the call of `copy` that is being made. Every step keeps it
(`Inv.step`), except that a new call puts its own arguments and memory in the place of `call`
(`Inv.copy`). So every reachable state meets it for some call (`exists_inv_of_run`).
-/

namespace Doost.Memcpy

open Transition

variable {n i : ℕ} {call : Call} {sh' : Shared} {ws' : ℕ → Worker}

/-- What holds at each place of the owner of a pool of `n` workers; `call` is the call of `copy`
that is being made. -/
def Inv (n : ℕ) (call : Call) (s : System) : Prop :=
  match s.owner with
  | .starting m .setWorkerCount =>
    m = n ∧ s.shared.startGeneration = 0 ∧ Standing 0 s.shared s.workers
  | .starting m .allocateStates =>
    m = n ∧ s.shared.startGeneration = 0 ∧ Standing 0 s.shared s.workers ∧
      s.shared.workerCount = n
  | .starting m .reserveThreads =>
    m = n ∧ s.shared.startGeneration = 0 ∧ Quiet n 0 s.shared s.workers
  | .starting m (.createThread i) =>
    m = n ∧ s.shared.startGeneration = 0 ∧ Quiet n i s.shared s.workers
  | .idle => Quiet n n s.shared s.workers
  | .copying c => InCopy n call c s.shared s.workers
  | .stopping _ .storeStopping => ∃ m, Standing m s.shared s.workers
  | .stopping _ .bumpGeneration | .stopping _ .notifyStart => ∃ m, Leaving m s.shared s.workers
  | .stopping _ (.join i) => ∃ m, Leaving m s.shared s.workers ∧ ∀ j < i, s.workers j = .exited
  | .stopping _ _ | .gone _ => Left s.shared s.workers

theorem inv_start (n : ℕ) (call : Call) (memory : Address → Byte) :
    Inv n call (System.start n memory) :=
  ⟨rfl, rfl, ⟨⟨rfl, le_rfl, rfl, rfl, fun _ _ => rfl⟩, rfl,
    fun i hi => absurd hi (Nat.not_lt_zero i)⟩⟩

/-- One more worker is created. -/
theorem Quiet.create {sh : Shared} {ws : ℕ → Worker} (h : Quiet n i sh ws) (hi : i < n)
    (hzero : sh.startGeneration = 0) :
    Quiet n (i + 1) { sh with threads := sh.threads + 1 } (Function.update ws i .enter) := by
  refine ⟨⟨⟨congrArg (· + 1) h.threads, ?_, h.deleted, h.undefined, fun j hj => ?_⟩, h.stopping,
    fun j hj => ?_⟩, h.workerCount, h.stateCount, h.completed⟩
  · exact hi.trans_eq h.stateCount.symm
  · rw [Function.update_of_ne (by omega)]
    exact h.absent j (by omega)
  · rcases Nat.lt_succ_iff_lt_or_eq.mp hj with hj | rfl
    · rw [Function.update_of_ne (by omega)]
      exact h.resting j hj
    · rw [Function.update_self]
      exact hzero

theorem Worker.Resting.leaving {w : Worker} {o : Generation} (h : w.Resting o) : w.Leaving := by
  cases w <;> trivial

/-- `stopping` is set between two announcements. -/
theorem Standing.stop {m : ℕ} {sh : Shared} {ws : ℕ → Worker} (h : Standing m sh ws) :
    Leaving m { sh with stopping := true } ws :=
  ⟨⟨h.threads, h.threads_le, h.deleted, h.undefined, h.absent⟩, rfl,
    fun i hi => (h.resting i hi).leaving⟩

/-- Every thread has been joined. -/
theorem Leaving.left {m : ℕ} {sh : Shared} {ws : ℕ → Worker} (h : Leaving m sh ws)
    (hexited : ∀ j < m, ws j = .exited) : Left sh ws := by
  refine ⟨h.undefined, fun i => ?_⟩
  rcases Nat.lt_or_ge i m with hi | hi
  · exact Or.inl (hexited i hi)
  · exact Or.inr (h.absent i hi)

namespace Inv

variable {s s' : System}

/-- A step of a worker, or a wake-up. -/
theorem move (h : Inv n call s) (hm : Moves n call s.shared s.workers sh' ws') :
    Inv n call { s with shared := sh', workers := ws' } := by
  obtain ⟨sh, owner, ws⟩ := s
  cases owner with
  | starting m pc =>
    cases pc with
    | setWorkerCount =>
      obtain ⟨hcount, hzero, hstanding⟩ := h
      obtain ⟨⟨q, rfl⟩, hstanding⟩ := hm.standing 0 hstanding
      exact ⟨hcount, hzero, hstanding⟩
    | allocateStates =>
      obtain ⟨hcount, hzero, hstanding, hworkers⟩ := h
      obtain ⟨⟨q, rfl⟩, hstanding⟩ := hm.standing 0 hstanding
      exact ⟨hcount, hzero, hstanding, hworkers⟩
    | reserveThreads =>
      obtain ⟨hcount, hzero, hquiet⟩ := h
      obtain ⟨⟨q, rfl⟩, hquiet⟩ := hm.quiet 0 hquiet
      exact ⟨hcount, hzero, hquiet⟩
    | createThread i =>
      obtain ⟨hcount, hzero, hquiet⟩ := h
      obtain ⟨⟨q, rfl⟩, hquiet⟩ := hm.quiet i hquiet
      exact ⟨hcount, hzero, hquiet⟩
  | idle => exact (hm.quiet n h).2
  | copying c => exact InCopy.move h hm
  | stopping thrown pc =>
    cases pc with
    | storeStopping =>
      obtain ⟨m, hstanding⟩ := h
      exact ⟨m, (hm.standing m hstanding).2⟩
    | bumpGeneration =>
      obtain ⟨m, hleaving⟩ := h
      exact ⟨m, hm.leaving m hleaving⟩
    | notifyStart =>
      obtain ⟨m, hleaving⟩ := h
      exact ⟨m, hm.leaving m hleaving⟩
    | join i =>
      obtain ⟨m, hleaving, hexited⟩ := h
      exact ⟨m, hm.leaving m hleaving, fun j hj => hm.exited j (hexited j hj)⟩
    | _ => exact hm.left h
  | gone thrown => exact hm.left h

/-- A step of `start_workers`. -/
theorem startWorkers {m : ℕ} {pc : StartPc} (h : Inv n call s) (howner : s.owner = .starting m pc)
    (hstep : s.startWorkers m pc = some s') : Inv n call s' := by
  obtain ⟨sh, owner, ws⟩ := s
  subst howner
  cases pc with
  | setWorkerCount =>
    obtain ⟨rfl, hzero, hstanding⟩ := h
    cases hstep
    exact ⟨rfl, hzero, ⟨⟨hstanding.threads, hstanding.threads_le, hstanding.deleted,
      hstanding.undefined, hstanding.absent⟩, hstanding.stopping, hstanding.resting⟩, rfl⟩
  | allocateStates =>
    obtain ⟨rfl, hzero, hstanding, hcount⟩ := h
    cases hstep
    exact ⟨rfl, hzero, ⟨⟨⟨hstanding.threads, Nat.zero_le _, hstanding.deleted,
      hstanding.undefined, hstanding.absent⟩, hstanding.stopping, hstanding.resting⟩, hcount, rfl,
      fun _ _ => hzero.symm⟩⟩
  | reserveThreads =>
    cases hstep
    exact h
  | createThread i =>
    obtain ⟨rfl, hzero, hquiet⟩ := h
    have hle := hquiet.threads_le
    rw [hquiet.stateCount] at hle
    simp only [System.startWorkers] at hstep
    split at hstep
    · rename_i hi
      cases hstep
      subst hi
      exact hquiet
    · rename_i hi
      cases hstep
      exact ⟨rfl, hzero, hquiet.create (by omega) hzero⟩

/-- A step of `stop_workers`. -/
theorem stopWorkers {thrown : Bool} {pc : StopPc} (h : Inv n call s)
    (howner : s.owner = .stopping thrown pc) (hstep : s.stopWorkers thrown pc = some s') :
    Inv n call s' := by
  obtain ⟨sh, owner, ws⟩ := s
  subst howner
  cases pc with
  | storeStopping =>
    obtain ⟨m, hstanding⟩ := h
    cases hstep
    exact ⟨m, hstanding.stop⟩
  | bumpGeneration =>
    obtain ⟨m, hleaving⟩ := h
    cases hstep
    exact ⟨m, ⟨hleaving.threads, hleaving.threads_le, hleaving.deleted, hleaving.undefined,
      hleaving.absent⟩, hleaving.stopping, hleaving.leaving⟩
  | notifyStart =>
    obtain ⟨m, hleaving⟩ := h
    cases hstep
    exact ⟨m, hleaving.queues .notifyAllStart, fun j hj => absurd hj (Nat.not_lt_zero j)⟩
  | join i =>
    obtain ⟨m, hleaving, hexited⟩ := h
    simp only [System.stopWorkers] at hstep
    split at hstep
    · rename_i hi
      cases hstep
      rw [hleaving.threads] at hi
      subst hi
      exact hleaving.left hexited
    · split at hstep
      · rename_i hw
        cases hstep
        refine ⟨m, hleaving, fun j hj => ?_⟩
        rcases Nat.lt_succ_iff_lt_or_eq.mp hj with hj | rfl
        · exact hexited j hj
        · exact hw
      · cases hstep
  | _ =>
    cases hstep
    exact ⟨h.undefined, h.left⟩

/-- A step of the owner. -/
theorem owner (h : Inv n call s) (hstep : s.ownerStep = some s') : Inv n call s' := by
  obtain ⟨sh, owner, ws⟩ := s
  cases owner with
  | starting m pc => exact h.startWorkers rfl hstep
  | idle => cases hstep
  | copying c =>
    simp only [System.ownerStep] at hstep
    split at hstep
    · rename_i v hpc
      cases hstep
      have hreturn := h.atPc
      rw [hpc] at hreturn
      exact hreturn.1
    · obtain ⟨r, hr, rfl⟩ := Option.map_eq_some_iff.mp hstep
      rw [Copy.step_eq_copy h.defined] at hr
      exact h.copy (fun _ => rfl) hr
  | stopping thrown pc => exact h.stopWorkers rfl hstep
  | gone thrown => cases hstep

/-- An exception in the constructor. -/
theorem throws (h : Inv n call s) (hstep : s.throwStep = some s') : Inv n call s' := by
  obtain ⟨sh, owner, ws⟩ := s
  cases owner with
  | starting m pc =>
    cases pc with
    | setWorkerCount => cases hstep
    | allocateStates =>
      cases hstep
      exact ⟨0, h.2.2.1⟩
    | reserveThreads =>
      cases hstep
      exact ⟨0, h.2.2.toStanding⟩
    | createThread i =>
      simp only [System.throwStep] at hstep
      split at hstep
      · cases hstep
      · cases hstep
        exact ⟨i, h.2.2.toStanding⟩
  | _ => cases hstep

/-- The owner starts something only when the pool is quiet. -/
theorem between {f : System → System} (h : Inv n call s) (hstep : s.between f = some s') :
    Quiet n n s.shared s.workers ∧ s.owner = .idle ∧ s' = f s := by
  obtain ⟨sh, owner, ws⟩ := s
  cases owner with
  | idle =>
    cases hstep
    exact ⟨h, rfl, rfl⟩
  | _ => cases hstep

/-- A new call of `copy`. -/
theorem copy {dst src size : ℕ} (h : Inv n call s)
    (hstep : s.next (.copy dst src size) = some s') :
    ∃ hseparate : Separate dst src size,
      Inv n ⟨dst, src, size, hseparate, s.shared.memory, s.shared.writes⟩ s' := by
  simp only [System.next] at hstep
  split at hstep
  · rename_i hseparate
    obtain ⟨hquiet, -, rfl⟩ := h.between hstep
    exact ⟨hseparate, rfl, rfl, rfl, hquiet, rfl, rfl⟩
  · cases hstep

/-- Every other step keeps the invariant for the same call. -/
theorem step {l : Label} (h : Inv n call s) (hl : ∀ dst src size, l ≠ .copy dst src size)
    (hstep : s.next l = some s') : Inv n call s' := by
  cases l with
  | worker i =>
    obtain ⟨r, hr, rfl⟩ := Option.map_eq_some_iff.mp hstep
    exact h.move (.worker hr)
  | owner => exact h.owner hstep
  | throws => exact h.throws hstep
  | copy dst src size => exact absurd rfl (hl dst src size)
  | destroy =>
    simp only [System.next] at hstep
    obtain ⟨hquiet, -, rfl⟩ := h.between hstep
    exact ⟨n, hquiet.toStanding⟩
  | client address byte =>
    simp only [System.next] at hstep
    obtain ⟨hquiet, howner, rfl⟩ := h.between hstep
    obtain ⟨sh, owner, ws⟩ := s
    cases howner
    exact hquiet.memory _ _
  | wake t =>
    cases hstep
    exact h.move (.queues (.wake t))

/-- Some threads of the pool have been created, or all of them have left. -/
theorem started_or_left (h : Inv n call s) :
    (∃ m, Started m s.shared s.workers) ∨ Left s.shared s.workers := by
  obtain ⟨sh, owner, ws⟩ := s
  cases owner with
  | starting m pc =>
    left
    cases pc with
    | setWorkerCount => exact ⟨0, h.2.2.toStarted⟩
    | allocateStates => exact ⟨0, h.2.2.1.toStarted⟩
    | reserveThreads => exact ⟨0, h.2.2.toStarted⟩
    | createThread i => exact ⟨i, h.2.2.toStarted⟩
  | idle =>
    have hquiet : Quiet n n sh ws := h
    exact Or.inl ⟨n, hquiet.toStarted⟩
  | copying c => exact Or.inl ⟨n, InCopy.started h⟩
  | stopping thrown pc =>
    cases pc with
    | storeStopping =>
      obtain ⟨m, hstanding⟩ := h
      exact Or.inl ⟨m, hstanding.toStarted⟩
    | bumpGeneration =>
      obtain ⟨m, hleaving⟩ := h
      exact Or.inl ⟨m, hleaving.toStarted⟩
    | notifyStart =>
      obtain ⟨m, hleaving⟩ := h
      exact Or.inl ⟨m, hleaving.toStarted⟩
    | join i =>
      obtain ⟨m, hleaving, -⟩ := h
      exact Or.inl ⟨m, hleaving.toStarted⟩
    | _ => exact Or.inr h
  | gone thrown => exact Or.inr h

/-- No step has touched what is not there. -/
theorem undefined (h : Inv n call s) : s.shared.undefined = false := by
  rcases h.started_or_left with ⟨m, hstarted⟩ | hleft
  · exact hstarted.undefined
  · exact hleft.undefined

/-- A step of a worker touches only what is there. -/
theorem workerStep (h : Inv n call s) (hstep : s.workerStep i = some s') :
    ∃ sh' w, (s.workers i).workerLoop i s.shared = some (sh', w) ∧
      s' = { s with shared := sh', workers := Function.update s.workers i w } := by
  obtain ⟨⟨sh', w⟩, hact, rfl⟩ := Option.map_eq_some_iff.mp hstep
  refine ⟨sh', w, ?_, rfl⟩
  rcases h.started_or_left with ⟨m, hstarted⟩ | hleft
  · exact (hstarted.step hact).2
  · rcases hleft.left i with hw | hw <;> (rw [hw] at hact; cases hact)

/-- Every step keeps the invariant for some call. -/
theorem exists_next {l : Label} (h : Inv n call s) (hstep : s.next l = some s') :
    ∃ call, Inv n call s' := by
  by_cases hl : ∃ dst src size, l = .copy dst src size
  · obtain ⟨dst, src, size, rfl⟩ := hl
    exact ⟨_, (h.copy hstep).choose_spec⟩
  · exact ⟨call, h.step (fun dst src size heq => hl ⟨dst, src, size, heq⟩) hstep⟩

end Inv

/-! ## Every run -/

theorem exists_inv_of_run {memory : Address → Byte} {ls : List Label} {s : System}
    (hrun : run System.next (System.start n memory) ls = some s) : ∃ call, Inv n call s := by
  have hstep : ∀ s l s', (∃ call, Inv n call s) → (fun _ => True) l → s.next l = some s' →
      ∃ call, Inv n call s' := by
    rintro s l s' ⟨call, h⟩ - hnext
    exact h.exists_next hnext
  have hempty : Separate 0 0 0 := Or.inl le_rfl
  exact run_invariant hstep
    ⟨⟨0, 0, 0, hempty, memory, []⟩, inv_start n _ memory⟩ (fun _ _ => trivial) hrun

/-- **No step of a pool touches what is not there**: the states of the workers while they are not
allocated, or the pool after it has been deleted. -/
theorem run_defined {memory : Address → Byte} {ls : List Label} {s : System}
    (hrun : run System.next (System.start n memory) ls = some s) : s.shared.undefined = false := by
  obtain ⟨call, h⟩ := exists_inv_of_run hrun
  exact h.undefined

/-- The rest of a call, up to the next one. -/
theorem Inv.run {s s' : System} {ls : List Label} (h : Inv n call s)
    (hls : ∀ l ∈ ls, ∀ dst src size, l ≠ .copy dst src size)
    (hrun : run System.next s ls = some s') : Inv n call s' :=
  run_invariant (fun _ _ _ h hl hstep => h.step hl hstep) h hls hrun

end Doost.Memcpy
