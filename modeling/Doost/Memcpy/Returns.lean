import Doost.Memcpy.WorkBound

/-!
# Every operation of a pool returns

A schedule lets only the owner and the workers move. The potential bounds its length
(`length_le_potential`), and when nobody can move any more the owner is not inside an operation
(`WakeUps.not_busy`). So no schedule keeps a call of `copy` or the destructor from returning
(`copy_returns`, `destructor_returns`).
-/

namespace Doost.Memcpy

open Transition

variable {n i : ℕ} {call : Call} {sh sh' : Shared} {ws : ℕ → Worker} {w : Worker}

/-! ## Schedules -/

/-- A step that a thread of the pool takes by itself, as the scheduler chooses. -/
def Label.Scheduled : Label → Prop
  | .worker _ | .owner => True
  | _ => False

theorem Label.Scheduled.steps {l : Label} (h : l.Scheduled) : l.steps = 1 := by
  cases l <;> first | rfl | exact absurd h id

theorem Label.Scheduled.pays {l : Label} (h : l.Scheduled) : l.pays n = 0 := by
  cases l <;> first | rfl | exact absurd h id

theorem Label.Scheduled.ne_copy {l : Label} (h : l.Scheduled) (dst src : Address) (size : ℕ) :
    l ≠ .copy dst src size := by
  rintro rfl
  exact h

/-- Left to themselves, the threads of the pool take no more steps than the potential says. -/
theorem length_le_potential {s s' : System} {ls : List Label} (h : Inv n call s)
    (hls : ∀ l ∈ ls, l.Scheduled) (hrun : run System.next s ls = some s') :
    ls.length ≤ s.potential := by
  have hle := potential_run h hrun
  rw [cost_eq_length fun l hl => (hls l hl).steps, cost_eq_zero fun l hl => (hls l hl).pays] at hle
  omega

/-- When no thread can take a step any more, the owner is not inside an operation. -/
theorem WakeUps.not_busy {s s' : System} {ls : List Label} (hw : WakeUps s) (h : Inv n call s)
    (hrun : run System.next s ls = some s') (hstuck : Stuck System.next Label.Scheduled s') :
    ¬ s'.owner.Busy := by
  have hstep : ∀ s l s', ((∃ call, Inv n call s) ∧ WakeUps s) → (fun _ => True) l →
      s.next l = some s' → (∃ call, Inv n call s') ∧ WakeUps s' := by
    rintro s l s' ⟨⟨call, h⟩, hw⟩ - hnext
    exact ⟨h.exists_next hnext, hw.step h hnext⟩
  obtain ⟨⟨call', h'⟩, hw'⟩ := run_invariant hstep ⟨⟨call, h⟩, hw⟩ (fun _ _ => trivial) hrun
  intro hbusy
  rcases WakeUps.isSome_or_blocked h' hbusy with howner | hblocked
  · rw [hstuck .owner trivial] at howner
    cases howner
  · obtain ⟨i, hi⟩ := hw'.exists_awake h' hblocked
    have hsome := hi.isSome
    rw [hstuck (.worker i) trivial] at hsome
    cases hsome

/-- A resting worker takes at most five steps. -/
theorem Worker.Resting.potential_le (hrest : w.Resting sh.startGeneration) :
    w.potential i sh ≤ 5 := by
  cases w with
  | enter =>
    have hzero : sh.startGeneration = 0 := hrest
    simp only [Worker.potential, loopPotential, hzero, if_pos]
    omega
  | loadGeneration o | checkStopping o | notifyCaller o =>
    obtain rfl : o = sh.startGeneration := hrest
    simp only [Worker.potential, loopPotential, if_pos]
    omega
  | waitStart o =>
    obtain rfl : o = sh.startGeneration := hrest
    simp only [Worker.potential, if_pos]
    split <;> omega
  | _ => exact absurd hrest id

theorem Quiet.workersPotential_le (h : Quiet n n sh ws) : workersPotential sh ws ≤ 5 * n := by
  unfold workersPotential
  rw [h.threads]
  calc ∑ i ∈ Finset.range n, (ws i).potential i sh ≤ ∑ _i ∈ Finset.range n, 5 :=
        Finset.sum_le_sum fun i hi => (h.resting i (Finset.mem_range.mp hi)).potential_le
    _ = 5 * n := by rw [Finset.sum_const, Finset.card_range, smul_eq_mul, Nat.mul_comm]

/-! ## A call of `copy` -/

/-- The call is in progress, or has been carried out and has returned. -/
structure CarriesOut (n : ℕ) (call : Call) (s : System) : Prop where
  inv : Inv n call s
  place : (∃ c, s.owner = .copying c) ∨ (s.owner = .idle ∧ Finished n call s.shared)

theorem CarriesOut.step {s s' : System} {l : Label} (h : CarriesOut n call s) (hl : l.Scheduled)
    (hstep : s.next l = some s') : CarriesOut n call s' := by
  have hinv := h.inv
  have hinv' : Inv n call s' := hinv.step hl.ne_copy hstep
  refine ⟨hinv', ?_⟩
  obtain ⟨sh, owner, ws⟩ := s
  cases l with
  | worker i =>
    obtain ⟨⟨sh', w⟩, hw, rfl⟩ := Option.map_eq_some_iff.mp hstep
    rcases h.place with hcopying | ⟨howner, hfinished⟩
    · exact Or.inl hcopying
    · obtain rfl : owner = .idle := howner
      obtain ⟨⟨q, rfl⟩, -⟩ := Quiet.worker hinv hw
      exact Or.inr ⟨rfl, hfinished.equal, hfinished.outside, hfinished.written⟩
  | owner =>
    rcases h.place with ⟨c, howner⟩ | ⟨howner, -⟩
    · obtain rfl : owner = .copying c := howner
      simp only [System.next, System.ownerStep] at hstep
      split at hstep
      · next v hpc =>
        cases hstep
        have hreturned : System.returned ⟨sh, .copying c, ws⟩ = some v := by
          simp only [System.returned, Copy.returned, hpc]
        exact Or.inr ⟨rfl, (hinv.finished hreturned).2⟩
      · obtain ⟨r, -, rfl⟩ := Option.map_eq_some_iff.mp hstep
        exact Or.inl ⟨r.2, rfl⟩
    · obtain rfl : owner = .idle := howner
      cases hstep
  | _ => exact absurd hl id

/-- **Every call of `copy` returns.** A call `copy(dst, src, size)` that is made in a reachable
state of a pool of `n` workers takes no more than `size + 26 n + 7` steps of the owner and the
workers, whoever moves when. There is a schedule at whose end nobody can move, and at the end of
every such schedule the call has returned: the destination is what the source was, and every other
byte is as it was. -/
theorem copy_returns {memory : Address → Byte} {ls : List Label} {s called : System}
    {dst src size : ℕ} (hrun : run System.next (System.start n memory) ls = some s)
    (hcall : s.next (.copy dst src size) = some called) :
    (∀ ms s', (∀ l ∈ ms, l.Scheduled) → run System.next called ms = some s' →
      ms.length ≤ size + 26 * n + 7) ∧
    (∃ ms s', (∀ l ∈ ms, l.Scheduled) ∧ run System.next called ms = some s' ∧
      Stuck System.next Label.Scheduled s') ∧
    ∀ ms s', (∀ l ∈ ms, l.Scheduled) → run System.next called ms = some s' →
      Stuck System.next Label.Scheduled s' →
      s'.owner = .idle ∧
      (∀ k < size, s'.shared.memory (dst + k) = s.shared.memory (src + k)) ∧
      ∀ a, a < dst ∨ dst + size ≤ a → s'.shared.memory a = s.shared.memory a := by
  obtain ⟨call, h, hw⟩ := wakeUps_of_run hrun
  have hw' : WakeUps called := hw.step h hcall
  obtain ⟨hseparate, h'⟩ := h.copy hcall
  have hcopying : ∃ c, called.owner = .copying c := by
    simp only [System.next, if_pos hseparate] at hcall
    obtain ⟨-, -, rfl⟩ := h.between hcall
    exact ⟨_, rfl⟩
  have hbound : ∀ ms s', (∀ l ∈ ms, l.Scheduled) → run System.next called ms = some s' →
      ms.length ≤ size + 26 * n + 7 := by
    intro ms s' hms hmrun
    have hlength := length_le_potential h' hms hmrun
    have hput : called.potential + 0 ≤ s.potential + (size + 21 * n + 7) := h.potential_step hcall
    have hidle : s.potential ≤ 5 * n := by
      simp only [System.next, if_pos hseparate] at hcall
      obtain ⟨hquiet, howner, -⟩ := h.between hcall
      simp only [System.potential, System.ownerPotential, howner]
      have := hquiet.workersPotential_le
      omega
    omega
  refine ⟨hbound, exists_stuck hbound, fun ms s' hms hmrun hstuck => ?_⟩
  have hcarried : CarriesOut n ⟨dst, src, size, hseparate, s.shared.memory, s.shared.writes⟩ s' :=
    run_invariant (fun _ _ _ hI hl hnext => CarriesOut.step hI hl hnext) ⟨h', Or.inl hcopying⟩
      hms hmrun
  have hidle : ¬ s'.owner.Busy := hw'.not_busy h' hmrun hstuck
  rcases hcarried.place with ⟨c, howner⟩ | ⟨howner, hfinished⟩
  · rw [howner] at hidle
    exact absurd trivial hidle
  · refine ⟨howner, fun k hk => ?_, hfinished.outside⟩
    have hsource : s'.shared.memory (src + k) = s.shared.memory (src + k) :=
      hfinished.outside _ (by
        change src + k < dst ∨ dst + size ≤ src + k
        unfold Separate at hseparate
        omega)
    exact (hfinished.equal k hk).trans hsource

theorem copy_returns_twoWorkers :
    ∃ s called, run System.next (System.start 2 (BitVec.ofNat 8)) constructTwo = some s ∧
      s.next (.copy 20 10 3) = some called ∧
      (∀ ms s', (∀ l ∈ ms, l.Scheduled) → run System.next called ms = some s' → ms.length ≤ 62) ∧
      ∃ ms s', (∀ l ∈ ms, l.Scheduled) ∧ run System.next called ms = some s' ∧
        s'.owner = .idle := by
  have hsome : ((run System.next (System.start 2 (BitVec.ofNat 8)) constructTwo).bind fun s =>
      s.next (.copy 20 10 3)).isSome := by rfl
  obtain ⟨called, hcalled⟩ := Option.isSome_iff_exists.mp hsome
  obtain ⟨s, hs, hcalled⟩ := Option.bind_eq_some_iff.mp hcalled
  obtain ⟨hbound, ⟨ms, s', hms, hrun, hstuck⟩, hend⟩ := copy_returns hs hcalled
  exact ⟨s, called, hs, hcalled, hbound, ms, s', hms, hrun, (hend ms s' hms hrun hstuck).1⟩

/-! ## The destructor -/

/-- The pool is being destroyed, or has been. -/
structure Leaves (n : ℕ) (call : Call) (memory : Address → Byte) (s : System) : Prop where
  inv : Inv n call s
  memory : s.shared.memory = memory
  place : (∃ pc, s.owner = .stopping false pc) ∨
    (s.owner = .gone false ∧ s.shared.deleted = true)

/-- A worker of a pool that is being destroyed changes nothing but who sleeps where. -/
theorem Inv.worker_stopping {thrown : Bool} {pc : StopPc}
    (h : Inv n call ⟨sh, .stopping thrown pc, ws⟩) (hw : (ws i).step i sh = some (sh', w)) :
    sh.SameButQueues sh' := by
  have hleft : ¬ Left sh ws := by
    intro hleft
    rcases hleft.left i with hi | hi <;> (rw [hi] at hw; cases hw)
  cases pc with
  | storeStopping =>
    obtain ⟨m, hstanding⟩ := h
    exact (hstanding.worker hw).1
  | bumpGeneration | notifyStart =>
    obtain ⟨m, hleaving⟩ := h
    exact (hleaving.worker hw).1
  | join k =>
    obtain ⟨m, hleaving, -⟩ := h
    exact (hleaving.worker hw).1
  | _ => exact absurd h hleft

theorem Leaves.step {memory : Address → Byte} {s s' : System} {l : Label}
    (h : Leaves n call memory s) (hl : l.Scheduled) (hstep : s.next l = some s') :
    Leaves n call memory s' := by
  obtain ⟨hinv, hmemory, hplace⟩ := h
  have hinv' : Inv n call s' := hinv.step hl.ne_copy hstep
  obtain ⟨sh, owner, ws⟩ := s
  rcases hplace with ⟨pc, howner⟩ | ⟨howner, -⟩
  · obtain rfl : owner = .stopping false pc := howner
    cases l with
    | worker i =>
      obtain ⟨⟨sh', w⟩, hw, rfl⟩ := Option.map_eq_some_iff.mp hstep
      obtain ⟨q, rfl⟩ := hinv.worker_stopping hw
      exact ⟨hinv', hmemory, Or.inl ⟨pc, rfl⟩⟩
    | owner =>
      cases pc with
      | join i =>
        simp only [System.next, System.ownerStep, System.stopWorkers] at hstep
        split at hstep
        · cases hstep
          exact ⟨hinv', hmemory, Or.inl ⟨_, rfl⟩⟩
        · split at hstep <;> cases hstep
          exact ⟨hinv', hmemory, Or.inl ⟨_, rfl⟩⟩
      | deleteImpl =>
        cases hstep
        exact ⟨hinv', hmemory, Or.inr ⟨rfl, rfl⟩⟩
      | _ =>
        cases hstep
        exact ⟨hinv', hmemory, Or.inl ⟨_, rfl⟩⟩
    | _ => exact absurd hl id
  · obtain rfl : owner = .gone false := howner
    cases l with
    | worker i =>
      obtain ⟨⟨sh', w⟩, hw, rfl⟩ := Option.map_eq_some_iff.mp hstep
      have hleft : Left sh ws := hinv
      rcases hleft.left i with hi | hi <;> (simp only [hi] at hw; cases hw)
    | owner => cases hstep
    | _ => exact absurd hl id

/-- **The destructor returns.** The destruction of a pool of `n` workers, in a reachable state,
takes no more than `10 n + 9` steps of the owner and the workers, whoever moves when. There is a
schedule at whose end nobody can move, and at the end of every such schedule every thread that was
created has left `worker_loop` and the pool has been deleted. -/
theorem destructor_returns {memory : Address → Byte} {ls : List Label} {s stopped : System}
    (hrun : run System.next (System.start n memory) ls = some s)
    (hdestroy : s.next .destroy = some stopped) :
    (∀ ms s', (∀ l ∈ ms, l.Scheduled) → run System.next stopped ms = some s' →
      ms.length ≤ 10 * n + 9) ∧
    (∃ ms s', (∀ l ∈ ms, l.Scheduled) ∧ run System.next stopped ms = some s' ∧
      Stuck System.next Label.Scheduled s') ∧
    ∀ ms s', (∀ l ∈ ms, l.Scheduled) → run System.next stopped ms = some s' →
      Stuck System.next Label.Scheduled s' →
      s'.owner = .gone false ∧ s'.shared.deleted = true ∧ s'.shared.memory = s.shared.memory ∧
      ∀ i, s'.workers i = .exited ∨ s'.workers i = .absent := by
  obtain ⟨call, h, hw⟩ := wakeUps_of_run hrun
  have hw' : WakeUps stopped := hw.step h hdestroy
  have hput : stopped.potential + 0 ≤ s.potential + (5 * n + 9) := h.potential_step hdestroy
  simp only [System.next] at hdestroy
  obtain ⟨hquiet, howner, rfl⟩ := h.between hdestroy
  have hidle : s.potential ≤ 5 * n := by
    simp only [System.potential, System.ownerPotential, howner]
    have := hquiet.workersPotential_le
    omega
  have hleaves : Leaves n call s.shared.memory
      { s with owner := .stopping false .storeStopping } :=
    ⟨⟨n, hquiet.toStanding⟩, rfl, Or.inl ⟨_, rfl⟩⟩
  have hbound : ∀ ms s', (∀ l ∈ ms, l.Scheduled) →
      run System.next { s with owner := .stopping false .storeStopping } ms = some s' →
      ms.length ≤ 10 * n + 9 := by
    intro ms s' hms hmrun
    have hlength := length_le_potential hleaves.inv hms hmrun
    omega
  refine ⟨hbound, exists_stuck hbound, fun ms s' hms hmrun hstuck => ?_⟩
  obtain ⟨hinv, hmemory, hplace⟩ : Leaves n call s.shared.memory s' :=
    run_invariant (fun _ _ _ hI hl hnext => Leaves.step hI hl hnext) hleaves hms hmrun
  have hgone : ¬ s'.owner.Busy := hw'.not_busy hleaves.inv hmrun hstuck
  rcases hplace with ⟨pc, hstopping⟩ | ⟨hgone, hdeleted⟩
  · rw [hstopping] at hgone
    exact absurd trivial hgone
  · unfold Inv at hinv
    rw [hgone] at hinv
    exact ⟨hgone, hdeleted, hmemory, hinv.left⟩

theorem destructor_returns_twoWorkers :
    ∃ s stopped, run System.next (System.start 2 (BitVec.ofNat 8)) constructTwo = some s ∧
      s.next .destroy = some stopped ∧
      (∀ ms s', (∀ l ∈ ms, l.Scheduled) → run System.next stopped ms = some s' →
        ms.length ≤ 29) ∧
      ∃ ms s', (∀ l ∈ ms, l.Scheduled) ∧ run System.next stopped ms = some s' ∧
        s'.owner = .gone false := by
  have hsome : ((run System.next (System.start 2 (BitVec.ofNat 8)) constructTwo).bind fun s =>
      s.next .destroy).isSome := by rfl
  obtain ⟨stopped, hstopped⟩ := Option.isSome_iff_exists.mp hsome
  obtain ⟨s, hs, hstopped⟩ := Option.bind_eq_some_iff.mp hstopped
  obtain ⟨hbound, ⟨ms, s', hms, hrun, hstuck⟩, hend⟩ := destructor_returns hs hstopped
  exact ⟨s, stopped, hs, hstopped, hbound, ms, s', hms, hrun, (hend ms s' hms hrun hstuck).1⟩

end Doost.Memcpy
