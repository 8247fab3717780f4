import Doost.Memcpy.WakeUps

/-!
# Several callers on one pool

`doost::parallel_memcpy` calls `copy` on one pool of the process, from any thread. Here the callers
are any number of threads; each makes calls one after the other, and the steps of all callers and
workers interleave (`Callers.next`).

`copy` keeps no caller out: two calls write to the same job slots, and count up the same generation.
`concurrent_calls_interfere` shows a run in which a call returns without having been carried out,
and one in which a caller waits for a generation that no worker will complete.

Calls that come one at a time are carried out, whichever threads make them
(`serial_calls_are_memcpy`); a call with nothing to copy may come at any time.
-/

namespace Doost.Memcpy

open Transition

/-- The callers and the workers of a pool, and what they share. -/
structure Callers where
  shared : Shared
  /-- The call that each caller is in, if any. -/
  callers : ℕ → Option Copy
  workers : ℕ → Worker

namespace Callers

/-- Who moves. -/
inductive Label
  /-- The next step of worker `index`. -/
  | worker (index : ℕ)
  /-- The next step of caller `k`. -/
  | caller (k : ℕ)
  /-- Caller `k` calls `copy(dst, src, size)`. -/
  | call (k : ℕ) (dst src : Address) (size : ℕ)
  /-- The call of caller `k` returns. -/
  | ret (k : ℕ)
  /-- A spurious wake-up. -/
  | wake (t : Thread)

/-- Nobody is in a call of the pool. -/
def ofPool (s : System) : Callers :=
  ⟨s.shared, fun _ => none, s.workers⟩

/-- The next step of caller `k`. -/
def callerStep (s : Callers) (k : ℕ) : Option Callers :=
  (s.callers k).bind fun c => (c.step (.caller k) s.shared).map fun r =>
    { s with shared := r.1, callers := Function.update s.callers k (some r.2) }

/-- The next step of worker `index`. -/
def workerStep (s : Callers) (index : ℕ) : Option Callers :=
  ((s.workers index).step index s.shared).map fun r =>
    { s with shared := r.1, workers := Function.update s.workers index r.2 }

/-- One step of the system. The buffers of a call do not overlap. -/
def next (s : Callers) : Label → Option Callers
  | .worker index => s.workerStep index
  | .caller k => s.callerStep k
  | .call k dst src size =>
    if Separate dst src size then
      match s.callers k with
      | none => some { s with callers := Function.update s.callers k (some (.call dst src size)) }
      | some _ => none
    else none
  | .ret k =>
    match (s.callers k).bind Copy.returned with
    | some _ => some { s with callers := Function.update s.callers k none }
    | none => none
  | .wake t => some { s with shared := s.shared.wake t }

/-- The buffers of a new call lie apart from those of the calls in progress. -/
def Apart (s : Callers) : Label → Prop
  | .call _ dst src size => ∀ k c, s.callers k = some c →
      ∀ a ∈ [dst, src], ∀ b ∈ [c.frame.dst, c.frame.src], a + size ≤ b ∨ b + c.frame.size ≤ a
  | _ => True

/-- No call with something to copy is made while another one is in progress. -/
def Serial (s : Callers) : Label → Prop
  | .call _ _ _ size => size ≠ 0 → ∀ k c, s.callers k = some c → c.frame.size = 0
  | _ => True

end Callers

/-- The generation that the call has announced. -/
def Copy.generation (c : Copy) : Option Generation :=
  match c.pc with
  | .notifyStart g | .loadCompleted g _ | .waitCompleted g _ _ => some g
  | _ => none

/-- A call with nothing to copy. -/
def Copy.Empty (c : Copy) : Prop :=
  c.frame.size = 0 ∧ (c.pc = .enter ∨ c.pc = .returning c.frame.dst)

variable {n k : ℕ} {call : Call} {c c' : Copy} {sh sh' : Shared} {s s' : Callers}

theorem Copy.Empty.step (h : c.Empty) (me : Thread) (hstep : c.step me sh = some (sh', c')) :
    sh' = sh ∧ c'.Empty := by
  obtain ⟨f, pc⟩ := c
  obtain ⟨hsize, hpc | hpc⟩ := h
  · obtain rfl : pc = .enter := hpc
    have hdefined : Copy.defined sh ⟨f, .enter⟩ = true := by
      have hzero : f.size = 0 := hsize
      simp [Copy.defined, hzero]
    rw [Copy.step_eq_copy hdefined] at hstep
    simp only [Copy.copy] at hstep
    rw [if_pos hsize] at hstep
    cases hstep
    exact ⟨rfl, hsize, Or.inr rfl⟩
  · obtain rfl : pc = .returning f.dst := hpc
    cases hstep

namespace Callers

/-! ## One call at a time -/

/-- What holds of a pool of `n` workers while its calls come one at a time: `c` is the last call
with something to copy, made by caller `k`; it is in progress, or has returned. -/
structure InSerial (n k : ℕ) (call : Call) (c : Copy) (s : Callers) : Prop where
  inCopy : InCopy n call c s.shared s.workers
  start : StartQueue c.NotifiesStart s.shared s.workers
  completed : CompletedQueue (.caller k) c.waitsFor s.shared s.workers
  awaits : c.Awaits
  current : (s.callers k = some c ∧ c.frame.size ≠ 0) ∨ ∃ v, c.returned = some v
  others : ∀ j c', s.callers j = some c' →
    c'.Empty ∨ (j = k ∧ c' = c ∧ c.frame.size ≠ 0)

namespace InSerial

variable {i j : ℕ} {t : Thread}

/-- The callers after a change at one of them. -/
theorem callers_update {callers : ℕ → Option Copy} {x : Option Copy} {d : Copy}
    (h : Function.update callers j x i = some d) :
    (i = j ∧ x = some d) ∨ (i ≠ j ∧ callers i = some d) := by
  rcases eq_or_ne i j with rfl | hne
  · rw [Function.update_self] at h
    exact Or.inl ⟨rfl, h⟩
  · rw [Function.update_of_ne hne] at h
    exact Or.inr ⟨hne, h⟩

theorem quiet {v : Address} (h : InSerial n k call c s) (hreturned : c.returned = some v) :
    Quiet n n s.shared s.workers := by
  obtain ⟨f, pc⟩ := c
  have hpc := h.inCopy.atPc
  cases pc with
  | returning v => exact hpc.1
  | _ => cases hreturned

theorem worker (h : InSerial n k call c s) (hstep : s.workerStep i = some s') :
    InSerial n k call c s' := by
  obtain ⟨⟨sh', w⟩, hact, rfl⟩ := Option.map_eq_some_iff.mp hstep
  have hloop := (h.inCopy.started.step hact).2
  exact ⟨h.inCopy.move (.worker hact), h.start.worker hloop fun _ _ => h.inCopy.stopping,
    h.completed.worker hloop, h.awaits, h.current, h.others⟩

theorem wake (h : InSerial n k call c s) :
    InSerial n k call c { s with shared := s.shared.wake t } :=
  ⟨h.inCopy.move (.queues (.wake t)), h.start.wake t, h.completed.wake t, h.awaits, h.current,
    h.others⟩

/-- A step of a caller, which is in the last call with something to copy, or has nothing to
copy. -/
theorem caller (hn : 0 < n) (h : InSerial n k call c s) (hstep : s.callerStep j = some s') :
    ∃ c, InSerial n k call c s' := by
  obtain ⟨c', hj, hstep⟩ := Option.bind_eq_some_iff.mp hstep
  obtain ⟨⟨sh', c''⟩, hact, rfl⟩ := Option.map_eq_some_iff.mp hstep
  simp only
  rcases h.others j c' hj with hempty | ⟨rfl, rfl, hsize⟩
  · obtain ⟨rfl, hempty'⟩ := hempty.step _ hact
    refine ⟨c, h.inCopy, h.start, h.completed, h.awaits, ?_, fun i d hd => ?_⟩
    · rcases h.current with ⟨hk, hsize⟩ | hreturned
      · have hne : k ≠ j := by
          rintro rfl
          obtain rfl := Option.some.inj (hk.symm.trans hj)
          exact hsize hempty.1
        exact Or.inl ⟨(Function.update_of_ne hne ..).trans hk, hsize⟩
      · exact Or.inr hreturned
    · rcases callers_update hd with ⟨rfl, hnew⟩ | ⟨-, hd⟩
      · obtain rfl := Option.some.inj hnew
        exact Or.inl hempty'
      · exact h.others i d hd
  · rw [Copy.step_eq_copy h.inCopy.defined] at hact
    have hcopy := h.inCopy.copy (fun hzero => absurd hzero hn.ne') hact
    have hsize' : c''.frame.size ≠ 0 := by
      rw [hcopy.size, ← h.inCopy.size]
      exact hsize
    refine ⟨c'', hcopy, h.start.copy hact, h.completed.copy hact, h.awaits.copy hact,
      Or.inl ⟨Function.update_self .., hsize'⟩, fun i d hd => ?_⟩
    rcases callers_update hd with ⟨rfl, hnew⟩ | ⟨hne, hd⟩
    · obtain rfl := Option.some.inj hnew
      exact Or.inr ⟨rfl, rfl, hsize'⟩
    · rcases h.others i d hd with hempty | ⟨rfl, -, -⟩
      · exact Or.inl hempty
      · exact absurd rfl hne

/-- A new call: if it has something to copy, no other such call is in progress. -/
theorem newCall {dst src size : ℕ} (h : InSerial n k call c s)
    (hserial : s.Serial (.call j dst src size))
    (hstep : s.next (.call j dst src size) = some s') :
    ∃ k call c, InSerial n k call c s' := by
  simp only [Callers.next] at hstep
  split at hstep
  · rename_i hseparate
    split at hstep
    · rename_i hnone
      cases hstep
      by_cases hsize : size = 0
      · refine ⟨k, call, c, h.inCopy, h.start, h.completed, h.awaits, ?_, fun i d hd => ?_⟩
        · rcases h.current with ⟨hk, hc⟩ | hreturned
          · have hne : k ≠ j := by
              rintro rfl
              rw [hnone] at hk
              cases hk
            exact Or.inl ⟨(Function.update_of_ne hne ..).trans hk, hc⟩
          · exact Or.inr hreturned
        · rcases callers_update hd with ⟨rfl, hnew⟩ | ⟨-, hd⟩
          · obtain rfl := Option.some.inj hnew
            exact Or.inl ⟨hsize, Or.inl rfl⟩
          · exact h.others i d hd
      · obtain ⟨v, hreturned⟩ := h.current.resolve_left fun hk =>
          hk.2 (hserial hsize k c hk.1)
        have hquiet := h.quiet hreturned
        have hwaits : c.waitsFor = none ∧ ¬ c.NotifiesStart := by
          obtain ⟨f, pc⟩ := c
          cases pc with
          | returning v => exact ⟨rfl, id⟩
          | _ => cases hreturned
        have hcompleted := h.completed
        rw [hwaits.1] at hcompleted
        have hstart : StartQueue False s.shared s.workers := by
          have hstart := h.start
          rwa [iff_false_intro hwaits.2] at hstart
        refine ⟨j, ⟨dst, src, size, hseparate, s.shared.memory, s.shared.writes⟩,
          .call dst src size, ⟨rfl, rfl, rfl, hquiet, rfl, rfl⟩, hstart,
          fun i => Or.inl (hcompleted.nil i), trivial,
          Or.inl ⟨Function.update_self .., hsize⟩, fun i d hd => ?_⟩
        rcases callers_update hd with ⟨rfl, hnew⟩ | ⟨-, hd⟩
        · exact Or.inr ⟨rfl, (Option.some.inj hnew).symm, hsize⟩
        · rcases h.others i d hd with hempty | ⟨rfl, rfl, hc⟩
          · exact Or.inl hempty
          · exact absurd (hserial hsize _ _ hd) hc
    · cases hstep
  · cases hstep

theorem ret (h : InSerial n k call c s) (hstep : s.next (.ret j) = some s') :
    InSerial n k call c s' := by
  simp only [Callers.next] at hstep
  split at hstep
  · rename_i v hv
    obtain ⟨d, hd, hreturned⟩ := Option.bind_eq_some_iff.mp hv
    cases hstep
    refine ⟨h.inCopy, h.start, h.completed, h.awaits, ?_, fun i d' hd' => ?_⟩
    · rcases h.current with ⟨hk, hsize⟩ | hreturned'
      · rcases eq_or_ne k j with rfl | hne
        · obtain rfl := Option.some.inj (hk.symm.trans hd)
          exact Or.inr ⟨v, hreturned⟩
        · exact Or.inl ⟨(Function.update_of_ne hne ..).trans hk, hsize⟩
      · exact Or.inr hreturned'
    · rcases callers_update hd' with ⟨-, hd'⟩ | ⟨-, hd'⟩
      · cases hd'
      · exact h.others i d' hd'
  · cases hstep

theorem step (hn : 0 < n) {l : Label} (h : InSerial n k call c s) (hserial : s.Serial l)
    (hstep : s.next l = some s') : ∃ k call c, InSerial n k call c s' := by
  cases l with
  | worker i => exact ⟨k, call, c, h.worker hstep⟩
  | caller j =>
    obtain ⟨c', h'⟩ := h.caller hn hstep
    exact ⟨k, call, c', h'⟩
  | call j dst src size => exact h.newCall hserial hstep
  | ret j => exact ⟨k, call, c, h.ret hstep⟩
  | wake t =>
    cases hstep
    exact ⟨k, call, c, h.wake⟩

end InSerial

/-- Before the first call. -/
theorem inSerial_ofPool {call : Call} {pool : System} (h : Inv n call pool) (hw : WakeUps pool)
    (hidle : pool.owner = .idle) : ∃ k call c, InSerial n k call c (ofPool pool) := by
  obtain ⟨sh, owner, ws⟩ := pool
  obtain rfl : owner = .idle := hidle
  have hquiet : Quiet n n sh ws := h
  have hempty : Separate 0 0 0 := Or.inl le_rfl
  have hcompleted : ∀ i, sh.queues.completed i = [] := hw.completed.nil
  exact ⟨0, ⟨0, 0, 0, hempty, sh.memory, sh.writes⟩, ⟨⟨0, 0, 0, 0, 0, 0⟩, .returning 0⟩,
    ⟨rfl, rfl, rfl, hquiet, rfl, .empty rfl ⟨rfl, rfl⟩⟩, hw.start,
    fun i => Or.inl (hcompleted i), trivial, Or.inr ⟨0, rfl⟩, fun j c' hj => by cases hj⟩

theorem inSerial_of_run {memory : Address → Byte} {ls : List Memcpy.Label} {pool : System}
    {ms : List Label} (hn : 0 < n)
    (hpool : run System.next (System.start n memory) ls = some pool) (hidle : pool.owner = .idle)
    (hserial : Along Callers.next Serial (ofPool pool) ms)
    (hrun : run Callers.next (ofPool pool) ms = some s) : ∃ k call c, InSerial n k call c s := by
  obtain ⟨call, h, hw⟩ := wakeUps_of_run hpool
  have hstep : ∀ s l s', (∃ k call c, InSerial n k call c s) → Serial s l →
      s.next l = some s' → ∃ k call c, InSerial n k call c s' := by
    rintro s l s' ⟨k, call, c, hs⟩ hl hnext
    exact hs.step hn hl hnext
  exact Along.invariant Serial hstep (inSerial_ofPool h hw hidle) hserial hrun

namespace InSerial

/-- A call that returns has been carried out. -/
theorem finished {j : ℕ} {v : Address} (h : InSerial n k call c s) (hj : s.callers j = some c')
    (hreturned : c'.returned = some v) :
    v = c'.frame.dst ∧ ∀ b < c'.frame.size,
      s.shared.memory (c'.frame.dst + b) = s.shared.memory (c'.frame.src + b) := by
  rcases h.others j c' hj with ⟨hsize, hpc⟩ | ⟨rfl, rfl, -⟩
  · obtain ⟨f, pc⟩ := c'
    simp only at hsize hpc
    rcases hpc with rfl | hpc
    · cases hreturned
    · obtain rfl : pc = .returning f.dst := hpc
      exact ⟨(Option.some.inj hreturned).symm, fun b hb => absurd hb (by simp [hsize])⟩
  · obtain ⟨hdst, hsrc, hsize, hpc⟩ := h.inCopy
    obtain ⟨f, pc⟩ := c'
    simp only at hdst hsrc hsize
    cases pc with
    | returning u =>
      obtain rfl : u = v := Option.some.inj hreturned
      obtain ⟨-, hvalue, hfinished⟩ := hpc
      simp only [hdst, hsrc, hsize]
      exact ⟨hvalue, hfinished.equal⟩
    | _ => cases hreturned

/-- The generation that a call has announced is not overwritten. -/
theorem generation {j : ℕ} {g : Generation} (h : InSerial n k call c s)
    (hj : s.callers j = some c') (hg : c'.generation = some g) :
    s.shared.startGeneration = g := by
  rcases h.others j c' hj with ⟨-, hpc⟩ | ⟨rfl, rfl, -⟩
  · obtain ⟨f, pc⟩ := c'
    simp only at hpc
    rcases hpc with rfl | hpc
    · cases hg
    · obtain rfl : pc = .returning f.dst := hpc
      cases hg
  · have hpc := h.inCopy.atPc
    obtain ⟨f, pc⟩ := c'
    cases pc with
    | notifyStart g' | loadCompleted g' i =>
      obtain rfl : g' = g := Option.some.inj hg
      exact hpc.generation
    | waitCompleted g' i u =>
      obtain rfl : g' = g := Option.some.inj hg
      exact hpc.1.generation
    | _ => cases hg

/-- A call in progress is not stuck. -/
theorem progress {j : ℕ} (h : InSerial n k call c s) (hj : s.callers j = some c')
    (hreturned : c'.returned = none) :
    (s.next (.caller j)).isSome ∨ ∃ i, (s.next (.worker i)).isSome := by
  have hcaller : (c'.step (.caller j) s.shared).isSome → (s.next (.caller j)).isSome := by
    intro hstep
    simp only [Callers.next, callerStep, hj, Option.bind_some, Option.isSome_map]
    exact hstep
  rcases h.others j c' hj with ⟨hsize, hpc⟩ | ⟨rfl, rfl, -⟩
  · left
    refine hcaller ?_
    obtain ⟨f, pc⟩ := c'
    simp only at hsize hpc
    rcases hpc with rfl | hpc
    · simp [Copy.step, Copy.copy, hsize]
    · obtain rfl : pc = .returning f.dst := hpc
      cases hreturned
  · rcases h.inCopy.progress h.start h.completed h.awaits hreturned with hstep | ⟨i, hi, hstep⟩
    · left
      refine hcaller ?_
      rwa [Copy.step_eq_copy h.inCopy.defined]
    · right
      have hstarted := h.inCopy.started
      have hdefined := Worker.defined_of_alive (w := s.workers i) hstarted.deleted
        (hi.trans_le hstarted.threads_le)
      refine ⟨i, ?_⟩
      simp only [Callers.next, workerStep, Option.isSome_map]
      rwa [Worker.step_eq_workerLoop hdefined]

end InSerial

/-- **Calls that come one at a time are carried out.** Any number of threads call `copy` on a
constructed pool with a worker, and no call with something to copy is made while another one is in
progress. In every state reached, a call that returns has copied its own source to its own
destination; the generation that a call waits for is still the announced one; and while a call has
not returned, its caller or a worker can move. -/
theorem serial_calls_are_memcpy {memory : Address → Byte} {ls : List Memcpy.Label} {pool : System}
    {ms : List Label} (hn : 0 < n)
    (hpool : run System.next (System.start n memory) ls = some pool) (hidle : pool.owner = .idle)
    (hserial : Along Callers.next Serial (ofPool pool) ms)
    (hrun : run Callers.next (ofPool pool) ms = some s) :
    (∀ k c v, s.callers k = some c → c.returned = some v → v = c.frame.dst ∧
      ∀ b < c.frame.size,
        s.shared.memory (c.frame.dst + b) = s.shared.memory (c.frame.src + b)) ∧
      (∀ k c g, s.callers k = some c → c.generation = some g → s.shared.startGeneration = g) ∧
      ∀ k c, s.callers k = some c → c.returned = none →
        (s.next (.caller k)).isSome ∨ ∃ i, (s.next (.worker i)).isSome := by
  obtain ⟨k, call, c, h⟩ := inSerial_of_run hn hpool hidle hserial hrun
  exact ⟨fun j c' v hj hv => h.finished hj hv, fun j c' g hj hg => h.generation hj hg,
    fun j c' hj hnone => h.progress hj hnone⟩

/-- The construction of a pool of one worker. -/
def constructOne : List Memcpy.Label :=
  List.replicate 5 .owner

/-- A call of caller 0, while caller 1 is in a call with nothing to copy. -/
def firstCopy : List Label :=
  [.call 1 40 30 0, .call 0 20 10 1] ++ List.replicate 7 (.caller 0) ++
    List.replicate 10 (.worker 0) ++ [.caller 1] ++ List.replicate 2 (.caller 0)

/-- Both have returned, and caller 1 copies. -/
def secondCopy : List Label :=
  [.ret 0, .ret 1, .call 1 40 30 1] ++ List.replicate 7 (.caller 1) ++
    List.replicate 10 (.worker 0) ++ List.replicate 2 (.caller 1)

/-- A thread that does not call is in no call. -/
theorem callers_none_of_run {ms : List Label} {k : ℕ} (hk : s.callers k = none)
    (hcall : ∀ l ∈ ms, ∀ dst src size, l ≠ .call k dst src size)
    (hrun : run Callers.next s ms = some s') : s'.callers k = none := by
  refine run_invariant (I := fun s => s.callers k = none) (fun s l s' hs hl hnext => ?_) hk hcall
    hrun
  cases l with
  | worker i =>
    obtain ⟨x, -, rfl⟩ := Option.map_eq_some_iff.mp hnext
    exact hs
  | caller j =>
    obtain ⟨d, hd, hnext⟩ := Option.bind_eq_some_iff.mp hnext
    obtain ⟨x, -, rfl⟩ := Option.map_eq_some_iff.mp hnext
    have hne : k ≠ j := fun heq => by cases hs.symm.trans (heq ▸ hd)
    exact (Function.update_of_ne hne _ _).trans hs
  | call j dst src size =>
    simp only [Callers.next] at hnext
    have hne : k ≠ j := fun heq => hl dst src size (heq ▸ rfl)
    split at hnext
    · split at hnext <;> cases hnext
      exact (Function.update_of_ne hne _ _).trans hs
    · cases hnext
  | ret j =>
    simp only [Callers.next] at hnext
    split at hnext <;> cases hnext
    by_cases hkj : k = j
    · exact hkj ▸ Function.update_self ..
    · exact (Function.update_of_ne hkj _ _).trans hs
  | wake t =>
    obtain rfl := Option.some.inj hnext
    exact hs

theorem serial_twoCopies {pool : System}
    (hpool : run System.next (System.start 1 (BitVec.ofNat 8)) constructOne = some pool) :
    Along Callers.next Serial (ofPool pool) (firstCopy ++ secondCopy) := by
  have hnone : (run System.next (System.start 1 (BitVec.ofNat 8)) constructOne).bind
      (fun pool => (run Callers.next (ofPool pool) (firstCopy ++ [.ret 0, .ret 1])).map fun s =>
        ((s.callers 0).isNone, (s.callers 1).isNone)) = some (true, true) := by
    decide +kernel
  have hfirst : Along Callers.next Serial (ofPool pool) firstCopy := by
    refine ⟨fun hsize => absurd rfl hsize, fun s hs => ⟨fun _ k c hk => ?_, fun t _ =>
      Along.of_forall fun l hl s => ?_⟩⟩
    · cases hs
      rcases InSerial.callers_update hk with ⟨-, hc⟩ | ⟨-, hc⟩
      · obtain rfl := Option.some.inj hc
        rfl
      · cases hc
    · cases l with
      | call k dst src size => simp at hl
      | _ => trivial
  refine hfirst.append fun s hs => ⟨trivial, fun t ht => ⟨trivial, fun u hu =>
    ⟨fun _ k c hk => ?_, fun v _ => Along.of_forall fun l hl s => ?_⟩⟩⟩
  · have hrun : run Callers.next (ofPool pool) (firstCopy ++ [.ret 0, .ret 1]) = some u := by
      rw [run_append, hs]
      exact run_cons_eq_some.mpr ⟨t, ht, run_cons_eq_some.mpr ⟨u, hu, rfl⟩⟩
    rw [hpool, Option.bind_some, hrun] at hnone
    obtain ⟨hzero, hone⟩ := Prod.mk.inj (Option.some.inj hnone)
    match k with
    | 0 => cases hk ▸ hzero
    | 1 => cases hk ▸ hone
    | k + 2 =>
      have hfree : u.callers (k + 2) = none :=
        callers_none_of_run rfl (fun l hl dst src size => by
          rintro rfl
          simp [firstCopy] at hl) hrun
      cases hfree.symm.trans hk
  · cases l with
    | call k dst src size => simp at hl
    | _ => trivial

/-- Each caller copies in turn. -/
theorem serial_calls_are_memcpy_twoCopies :
    ∃ pool s t, run System.next (System.start 1 (BitVec.ofNat 8)) constructOne = some pool ∧
      run Callers.next (ofPool pool) firstCopy = some s ∧ run Callers.next s secondCopy = some t ∧
      (∃ c, s.callers 0 = some c ∧ c.returned = some 20 ∧ c.frame.size = 1 ∧
        ∀ b < c.frame.size,
          s.shared.memory (c.frame.dst + b) = s.shared.memory (c.frame.src + b)) ∧
      ∃ c, t.callers 1 = some c ∧ c.returned = some 40 ∧ c.frame.size = 1 ∧
        ∀ b < c.frame.size,
          t.shared.memory (c.frame.dst + b) = t.shared.memory (c.frame.src + b) := by
  have hconstruct : (run System.next (System.start 1 (BitVec.ofNat 8)) constructOne).map
      System.owner = some .idle := by
    rfl
  have hfacts : (run System.next (System.start 1 (BitVec.ofNat 8)) constructOne).bind (fun pool =>
      (run Callers.next (ofPool pool) firstCopy).bind fun s =>
        (run Callers.next s secondCopy).map fun t =>
          ((s.callers 0).map fun c => (c.returned, c.frame.size),
            (t.callers 1).map fun c => (c.returned, c.frame.size))) =
      some (some (some 20, 1), some (some 40, 1)) := by
    decide +kernel
  obtain ⟨pool, hpool, hidle⟩ := Option.map_eq_some_iff.mp hconstruct
  rw [hpool, Option.bind_some] at hfacts
  obtain ⟨s, hs, hfacts⟩ := Option.bind_eq_some_iff.mp hfacts
  obtain ⟨t, ht, hfacts⟩ := Option.map_eq_some_iff.mp hfacts
  obtain ⟨hfirst, hsecond⟩ := Prod.mk.inj hfacts
  obtain ⟨c, hc, hreturned⟩ := Option.map_eq_some_iff.mp hfirst
  obtain ⟨c', hc', hreturned'⟩ := Option.map_eq_some_iff.mp hsecond
  obtain ⟨hvalue, hsize⟩ := Prod.mk.inj hreturned
  obtain ⟨hvalue', hsize'⟩ := Prod.mk.inj hreturned'
  have hserial := serial_twoCopies hpool
  have ht' : run Callers.next (ofPool pool) (firstCopy ++ secondCopy) = some t := by
    rw [run_append, hs, Option.bind_some]
    exact ht
  have hcopies := (serial_calls_are_memcpy Nat.one_pos hpool hidle hserial.left hs).1
  have hcopies' := (serial_calls_are_memcpy Nat.one_pos hpool hidle hserial ht').1
  refine ⟨pool, s, t, hpool, hs, ht, ⟨c, hc, hvalue, hsize, ?_⟩, c', hc', hvalue', hsize', ?_⟩
  · exact (hcopies 0 c 20 hc hvalue).2
  · exact (hcopies' 1 c' 40 hc' hvalue').2

/-! ## Two calls at a time -/

/-- The run up to the first step of a call with disjoint buffers. -/
theorem apart_twoCalls {rest : List Label} (hidle : ∀ k, s.callers k = none)
    (hrest : ∀ l ∈ rest, ∀ k dst src size, l ≠ .call k dst src size) :
    Along Callers.next Apart s (.call 0 20 10 1 :: .call 1 40 30 1 :: rest) := by
  refine ⟨fun k c hk => ?_, fun s' hs' => ⟨fun k c hk => ?_, fun s'' _ =>
    Along.of_forall fun l hl s => ?_⟩⟩
  · rw [hidle] at hk
    cases hk
  · simp only [Callers.next, hidle] at hs'
    cases hs'
    rcases InSerial.callers_update hk with ⟨-, hc⟩ | ⟨-, hc⟩
    · obtain rfl := Option.some.inj hc
      simp [Copy.call]
    · rw [hidle] at hc
      cases hc
  · cases l with
    | call k dst src size => exact absurd rfl (hrest _ hl k dst src size)
    | _ => trivial

/-- Both callers write the job of the worker, caller 0 first; then caller 0 announces it, and
returns when the worker has carried out the call of caller 1. -/
def corruptingSteps : List Label :=
  List.replicate 4 (.caller 0) ++ List.replicate 4 (.caller 1) ++ List.replicate 3 (.caller 0) ++
    List.replicate 10 (.worker 0) ++ List.replicate 2 (.caller 0)

/-- Caller 0 announces generation 1, and caller 1 generation 2 before the worker has looked; the
worker completes generation 2, for which caller 1 waits, and caller 0 waits for generation 1. -/
def overtakingSteps : List Label :=
  List.replicate 7 (.caller 0) ++ List.replicate 6 (.caller 1) ++ List.replicate 10 (.worker 0) ++
    List.replicate 3 (.caller 1) ++ [.ret 1] ++ List.replicate 2 (.caller 0) ++
    List.replicate 3 (.worker 0)

/-- **Concurrent calls interfere.** On a pool of one worker, with disjoint buffers, there is a run
in which a call returns and its destination differs from its source, and one in which a call waits
for a generation that has been overwritten and nobody can move: neither its caller nor the worker,
and nobody else is in a call. -/
theorem concurrent_calls_interfere :
    ∃ pool, run System.next (System.start 1 (BitVec.ofNat 8)) constructOne = some pool ∧
      pool.owner = .idle ∧
      (∃ s, Along Callers.next Apart (ofPool pool)
          (.call 0 20 10 1 :: .call 1 40 30 1 :: corruptingSteps) ∧
        run Callers.next (ofPool pool)
          (.call 0 20 10 1 :: .call 1 40 30 1 :: corruptingSteps) = some s ∧
        (s.callers 0).bind Copy.returned = some 20 ∧
        s.shared.memory 20 ≠ s.shared.memory 10) ∧
      ∃ s, Along Callers.next Apart (ofPool pool)
          (.call 0 20 10 1 :: .call 1 40 30 1 :: overtakingSteps) ∧
        run Callers.next (ofPool pool)
          (.call 0 20 10 1 :: .call 1 40 30 1 :: overtakingSteps) = some s ∧
        (s.callers 0).bind Copy.generation = some 1 ∧ s.shared.startGeneration = 2 ∧
        (s.next (.caller 0)).isSome = false ∧ (s.next (.worker 0)).isSome = false ∧
        s.shared.threads = 1 ∧ (s.callers 1).isSome = false := by
  have hfacts : (run System.next (System.start 1 (BitVec.ofNat 8)) constructOne).bind (fun pool =>
      (run Callers.next (ofPool pool)
        (.call 0 20 10 1 :: .call 1 40 30 1 :: corruptingSteps)).bind fun s =>
      (run Callers.next (ofPool pool)
        (.call 0 20 10 1 :: .call 1 40 30 1 :: overtakingSteps)).map fun t =>
      (pool.owner, ((s.callers 0).bind Copy.returned, s.shared.memory 20, s.shared.memory 10),
        (t.callers 0).bind Copy.generation, t.shared.startGeneration,
        (t.next (.caller 0)).isSome, (t.next (.worker 0)).isSome, t.shared.threads,
        (t.callers 1).isSome)) =
      some (.idle, (some 20, 20, 10), some 1, 2, false, false, 1, false) := by rfl
  obtain ⟨pool, hpool, hfacts⟩ := Option.bind_eq_some_iff.mp hfacts
  obtain ⟨s, hs, hfacts⟩ := Option.bind_eq_some_iff.mp hfacts
  obtain ⟨t, ht, hfacts⟩ := Option.map_eq_some_iff.mp hfacts
  simp only [Prod.mk.injEq] at hfacts
  obtain ⟨hidle, ⟨hreturned, hdst, hsrc⟩, hstuck⟩ := hfacts
  refine ⟨pool, hpool, hidle, ⟨s, apart_twoCalls (fun _ => rfl) ?_, hs, hreturned, ?_⟩,
    t, apart_twoCalls (fun _ => rfl) ?_, ht, hstuck⟩
  · simp [corruptingSteps]
  · rw [hdst, hsrc]
    decide
  · simp [overtakingSteps]

end Callers

end Doost.Memcpy
