import Doost.Pools.Nonblocking

/-!
# Overflow of the non-blocking pool

The guard of a `NonblockingDownwardPool` is sized for one request, but the cursor also moves by
alignment padding and by the rounding to 16 bytes, which no access touches, and several threads can
subtract before any of them faults. A block can therefore start below the mapping without an
earlier fault (`block_below_mapping`). What decides is how much was reserved before: a block lands
in the accessible region or in the guard exactly when the reservations so far and its own bytes fit
the mapping (`place_iff`), and runs in which every `fetch_sub` finds that room keep all their
blocks above the mapping start (`nonblocking_overflow_lands_in_guard`).
-/

namespace Doost.Pools

open AlignedWord DownwardStack

/-- Threads in `allocate`, with the returned block each thread has yet to touch, and the block
whose first access faulted, after which the process takes no further step. -/
structure GuardedRun where
  run : NonblockingRun
  untouched : ℕ → Option Block
  fault : Option Block

inductive GuardedOp
  | pool (op : NonblockingOp)
  /-- Access the first byte of the block the thread was handed last. -/
  | touch (thread : ℕ)
  deriving DecidableEq, Repr

namespace GuardedOp

/-- The requests the pool was built for. -/
def Within (page maxAlloc : ℕ) : GuardedOp → Prop
  | pool (.call _ bytes alignment) =>
    1 ≤ bytes.toNat ∧ bytes.toNat ≤ maxAlloc ∧ alignment.toNat.isPowerOfTwo ∧
      alignment.toNat ≤ page
  | pool (.fetchSub _) => True
  | pool (.ret _) => True
  | touch _ => True

end GuardedOp

namespace GuardedRun

def start (pool : NonblockingDownwardPool) : GuardedRun :=
  ⟨NonblockingRun.start pool, fun _ => none, none⟩

/-- A step of a thread that still has a block to touch is that touch. -/
def next (m : Mapping) (s : GuardedRun) (op : GuardedOp) : Option GuardedRun :=
  match s.fault, op with
  | some _, _ => none
  | none, .pool (.call t bytes alignment) =>
    match s.untouched t with
    | some _ => none
    | none => (s.run.next (.call t bytes alignment)).map fun r => { s with run := r }
  | none, .pool (.fetchSub t) => (s.run.next (.fetchSub t)).map fun r => { s with run := r }
  | none, .pool (.ret t) =>
    (s.run.next (.ret t)).map fun r =>
      { s with
        run := r
        untouched := Function.update s.untouched t (r.returned.head?.map Taken.block) }
  | none, .touch t =>
    match s.untouched t with
    | none => none
    | some b =>
      if m.InGuard b.lo then some { s with fault := some b }
      else some { s with untouched := Function.update s.untouched t none }

/-- A step of the system is a step of the pool, or leaves the pool as it is. -/
theorem next_run {m : Mapping} {s s' : GuardedRun} {op : GuardedOp}
    (h : next m s op = some s') :
    (∃ o, op = .pool o ∧ s.run.next o = some s'.run) ∨ s'.run = s.run := by
  cases hf : s.fault with
  | some b => simp [next, hf] at h
  | none =>
    rcases op with (⟨t, bytes, alignment⟩ | t | t) | t
    · simp only [next, hf] at h
      split at h
      · simp at h
      · obtain ⟨r, hr, rfl⟩ := Option.map_eq_some_iff.mp h
        exact .inl ⟨_, rfl, hr⟩
    · obtain ⟨r, hr, rfl⟩ := Option.map_eq_some_iff.mp (by simpa only [next, hf] using h)
      exact .inl ⟨_, rfl, hr⟩
    · obtain ⟨r, hr, rfl⟩ := Option.map_eq_some_iff.mp (by simpa only [next, hf] using h)
      exact .inl ⟨_, rfl, hr⟩
    · simp only [next, hf] at h
      split at h
      · simp at h
      · split at h <;> obtain rfl := Option.some.inj h <;> exact .inr rfl

/-- At a `fetch_sub`, the reservations so far and the bytes of this request fit the mapping. -/
def LeavesRoom (m : Mapping) (s : GuardedRun) : GuardedOp → Prop
  | .pool (.fetchSub t) => ∀ bytes alignment, s.run.pc t = .called bytes alignment →
      s.run.reserved + bytes.toNat ≤ m.mappingBytes.toNat
  | _ => True

instance (m : Mapping) (s : GuardedRun) : (op : GuardedOp) → Decidable (s.LeavesRoom m op)
  | .pool (.call _ _ _) => isTrue trivial
  | .pool (.fetchSub t) =>
    match h : s.run.pc t with
    | .called bytes _ =>
      decidable_of_iff (s.run.reserved + bytes.toNat ≤ m.mappingBytes.toNat)
        (by simp [LeavesRoom, h])
    | .idle => isTrue (by simp [LeavesRoom, h])
    | .subtracted _ => isTrue (by simp [LeavesRoom, h])
  | .pool (.ret _) => isTrue trivial
  | .touch _ => isTrue trivial

end GuardedRun

variable {m : Mapping} {page maxAlloc : ℕ}

/-- Where the block of the next `fetch_sub` lands, as long as its bytes fit above address zero: in
the accessible region or the guard exactly when the reservations so far leave room for it. -/
theorem place_iff (hm : m.Guards page maxAlloc) {s : NonblockingRun}
    {P : SizeT → SizeT → Prop} (h : s.Ok m.storage m.hi P) {bytes alignment : SizeT}
    (hpow : alignment.toNat.isPowerOfTwo) (hpage : alignment.toNat ≤ page) (t : ℕ)
    (hfit : s.reserved + bytes.toNat ≤ m.hi) :
    (m.Holds (Taken.block ⟨t, bytes, alignment, s.pool.cursor⟩) ∨
        m.InGuard (Taken.block ⟨t, bytes, alignment, s.pool.cursor⟩).lo) ↔
      s.reserved + bytes.toNat ≤ m.mappingBytes.toNat := by
  have hcur := h.cursor_eq (by omega)
  have hhi : m.hi = m.lo + m.mappingBytes.toNat := rfl
  obtain ⟨-, htop, -, hbelow⟩ := alignDownwardPoolCursor_spec s.pool.cursor bytes hpow
    (by omega)
  have hlo := hbelow m.lo (hm.dvd_lo hpow hpage)
  have hblock : (Taken.block ⟨t, bytes, alignment, s.pool.cursor⟩).hi =
      (Taken.block ⟨t, bytes, alignment, s.pool.cursor⟩).lo + bytes.toNat := rfl
  have hge := hm.lo_le_guardEnd
  simp only [Mapping.Holds, Mapping.InGuard, hblock]
  change (_ ≤ (Taken.block ⟨t, bytes, alignment, s.pool.cursor⟩).lo ↔ _) at hlo
  change (Taken.block ⟨t, bytes, alignment, s.pool.cursor⟩).lo + _ ≤ _ at htop
  omega

namespace GuardedRun

/-- The invariant of runs whose `fetch_sub`s all leave room. -/
structure Ok (m : Mapping) (page : ℕ) (s : GuardedRun) : Prop where
  run_ok : s.run.Ok m.storage m.hi fun _ alignment =>
    alignment.toNat.isPowerOfTwo ∧ alignment.toNat ≤ page
  placed : ∀ x ∈ s.run.taken, m.Holds x.block ∨ m.InGuard x.block.lo

theorem start_ok (hm : m.Guards page maxAlloc) {pool : NonblockingDownwardPool}
    (hs : pool.storage = m.storage) : (start pool).Ok m page where
  run_ok := hs ▸ NonblockingRun.start_ok (hs ▸ hm.toNat_mappingEnd)
  placed := by simp [start, NonblockingRun.start]

theorem next_ok (hm : m.Guards page maxAlloc) {s s' : GuardedRun} {op : GuardedOp}
    (h : s.Ok m page) (hop : op.Within page maxAlloc) (hroom : LeavesRoom m s op)
    (hnext : next m s op = some s') : s'.Ok m page := by
  rcases next_run hnext with ⟨o, rfl, hrun⟩ | hsame
  · cases o with
    | call t bytes alignment =>
      have hok := h.run_ok.next_ok (.call t bytes alignment) hop.2.2 hrun
      obtain ⟨-, heq⟩ := NonblockingRun.call_inv hrun
      exact ⟨hok, by rw [heq]; exact h.placed⟩
    | ret t =>
      have hok := h.run_ok.next_ok (.ret t) trivial hrun
      obtain ⟨x, -, heq⟩ := NonblockingRun.ret_inv hrun
      exact ⟨hok, by rw [heq]; exact h.placed⟩
    | fetchSub t =>
      have hok := h.run_ok.next_ok (.fetchSub t) trivial hrun
      obtain ⟨bytes, alignment, hcalled, heq⟩ := NonblockingRun.fetchSub_inv hrun
      obtain ⟨hpow, hpage⟩ := h.run_ok.called t bytes alignment hcalled
      have hfits := hroom bytes alignment hcalled
      refine ⟨hok, ?_⟩
      rw [heq]
      refine List.forall_mem_cons.mpr ⟨?_, h.placed⟩
      exact (place_iff hm h.run_ok hpow hpage t
        (hfits.trans (Nat.le_add_left _ _))).mpr hfits
  · exact ⟨hsame ▸ h.run_ok, hsame ▸ h.placed⟩

end GuardedRun

/-- **When an overflow of the non-blocking pool lands in its guard.** In every run, up to the first
access fault, whose `fetch_sub`s all find the reservations so far and their own bytes fitting the
mapping, every returned block lies wholly in the accessible region or starts inside the guard. -/
theorem nonblocking_overflow_lands_in_guard {os : Os} {usableBytes maxAllocSize : SizeT}
    {process process' : Process} {pool : NonblockingDownwardPool} (hos : os.Lawful)
    (hmax : maxAllocSize.toNat + (os.page - 1) < 2 ^ 64)
    (hmake : NonblockingDownwardPool.make os usableBytes maxAllocSize process =
      (.ok pool, process')) :
    ∃ m ∈ process'.mappings, m.storage = pool.storage ∧
      m.guardEnd = m.lo + ceilTo maxAllocSize.toNat os.page ∧
      ∀ ops : List GuardedOp, (∀ op ∈ ops, op.Within os.page maxAllocSize.toNat) →
      Transition.Along (GuardedRun.next m) (GuardedRun.LeavesRoom m) (GuardedRun.start pool) ops →
      ∀ s, Transition.run (GuardedRun.next m) (GuardedRun.start pool) ops = some s →
        ∀ x ∈ s.run.returned, m.Holds x.block ∨ m.InGuard x.block.lo := by
  obtain ⟨hstorage, -⟩ := NonblockingDownwardPool.make_ok hmake
  obtain ⟨m, hm, hms, hguard, -, hmem⟩ := makeDownwardPoolStorage_guards hos hmax hstorage
  refine ⟨m, by simp [hmem], hms, by rw [← hguard]; rfl, ?_⟩
  intro ops hops hroom s hrun x hx
  have hok := (Transition.Along.of_labels hops).and hroom
  have h : s.Ok m os.page := hok.invariant _
    (fun _ _ _ hs hop hn => GuardedRun.next_ok hm hs hop.1 hop.2 hn)
    (GuardedRun.start_ok hm hms.symm) hrun
  exact h.placed x (h.run_ok.returned_subset x hx)

/-- Two threads are in `allocate` at once. The second `fetch_sub` finds room for its block, though
none above the guard. -/
def overlappingCalls : List GuardedOp :=
  [.pool (.call 0 4096 8), .pool (.call 1 4096 16), .pool (.fetchSub 0), .pool (.fetchSub 1),
    .pool (.ret 1), .pool (.ret 0), .touch 0, .touch 1]

/-- The block of thread 0 fills the accessible page, and that of thread 1 faults in the guard. -/
theorem nonblocking_overflow_lands_in_guard_overlappingCalls :
    ∃ pool process m s, NonblockingDownwardPool.make Os.fixed 4096 4096 ⟨[], none, []⟩ =
        (.ok pool, process) ∧ m ∈ process.mappings ∧
      Transition.run (GuardedRun.next m) (GuardedRun.start pool) overlappingCalls = some s ∧
      s.run.returned.map Taken.block = [⟨0x11000, 4096, 8⟩, ⟨0x10000, 4096, 16⟩] ∧
      m.Holds ⟨0x11000, 4096, 8⟩ ∧ s.fault = some ⟨0x10000, 4096, 16⟩ ∧
      ∀ x ∈ s.run.returned, m.Holds x.block ∨ m.InGuard x.block.lo := by
  obtain ⟨m, hmem, -, -, hruns⟩ := nonblocking_overflow_lands_in_guard Os.fixed_lawful (by decide)
    (show NonblockingDownwardPool.make Os.fixed 4096 4096 ⟨[], none, []⟩ =
      (.ok ⟨⟨0x10000, 0x2000⟩, 0x12000⟩, _) from rfl)
  obtain rfl : m = ⟨0x10000, 0x2000, 0x1000⟩ := List.mem_singleton.mp hmem
  have hwithin : ∀ op ∈ overlappingCalls, op.Within Os.fixed.page 4096 := by
    intro op hop
    simp only [overlappingCalls, List.mem_cons, List.not_mem_nil, or_false] at hop
    rcases hop with rfl | rfl | rfl | rfl | rfl | rfl | rfl | rfl
    · exact ⟨by decide, by decide, ⟨3, rfl⟩, by decide⟩
    · exact ⟨by decide, by decide, ⟨4, rfl⟩, by decide⟩
    all_goals trivial
  have hroom : Transition.Along (GuardedRun.next ⟨0x10000, 0x2000, 0x1000⟩)
      (GuardedRun.LeavesRoom ⟨0x10000, 0x2000, 0x1000⟩)
      (GuardedRun.start ⟨⟨0x10000, 0x2000⟩, 0x12000⟩) overlappingCalls := by
    decide
  exact ⟨_, _, _, _, rfl, hmem, rfl, rfl, by decide, rfl, hruns _ hwithin hroom _ rfl⟩

/-- A single thread: a request at the page alignment, placed at the very bottom of the accessible
region, moves the cursor through the whole guard, and the next block starts below the mapping
although no access has faulted. -/
theorem block_below_mapping :
    ∃ pool process, NonblockingDownwardPool.make Os.fixed 4096 4080 ⟨[], none, []⟩ =
        (.ok pool, process) ∧
      ∃ m ∈ process.mappings, m.storage = pool.storage ∧
        ∃ ops : List GuardedOp, (∀ op ∈ ops, op.Within Os.fixed.page 4080) ∧
          ∃ s, Transition.run (GuardedRun.next m) (GuardedRun.start pool) ops = some s ∧
            s.fault = none ∧ ∃ x ∈ s.run.returned, x.block.lo < m.lo := by
  refine ⟨⟨⟨0x10000, 0x2000⟩, 0x12000⟩, _, rfl, ⟨0x10000, 0x2000, 0x1000⟩, by decide, rfl,
    [.pool (.call 0 4080 1), .pool (.fetchSub 0), .pool (.ret 0), .touch 0,
      .pool (.call 0 16 4096), .pool (.fetchSub 0), .pool (.ret 0), .touch 0,
      .pool (.call 0 1 1), .pool (.fetchSub 0), .pool (.ret 0)], ?_, _, rfl, rfl,
    ⟨0, 1, 1, 0x10000⟩, ?_, by decide⟩
  · intro op hop
    simp only [List.mem_cons, List.not_mem_nil, or_false] at hop
    rcases hop with rfl | rfl | rfl | rfl | rfl | rfl | rfl | rfl | rfl | rfl | rfl
    · exact ⟨by decide, by decide, ⟨0, rfl⟩, by decide⟩
    · trivial
    · trivial
    · trivial
    · exact ⟨by decide, by decide, ⟨12, rfl⟩, by decide⟩
    · trivial
    · trivial
    · trivial
    · exact ⟨by decide, by decide, ⟨0, rfl⟩, by decide⟩
    all_goals trivial
  · exact List.mem_cons.mpr (.inl rfl)

end Doost.Pools
