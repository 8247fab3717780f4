import Doost.Foundations.Transition
import Doost.Pools.Storage

/-!
# The sequential downward pool

`DownwardPool.allocate` moves the cursor down and returns it, with no bounds check: an overflow is
meant to be caught because the returned block starts in the guard, so that its first access
faults. `overflow_lands_in_guard` proves that this holds in every run of `allocate` and `reset` in
which each block's first byte is touched before the next call, and that up to the fault the blocks
are aligned, accessible and stacked downwards without overlap.
-/

namespace Doost.Pools

open AlignedWord

/-! ## Blocks and mappings -/

/-- A block handed out by a pool. -/
structure Block where
  address : UIntPtr
  bytes : SizeT
  alignment : SizeT
  deriving DecidableEq, Repr

namespace Block

/-- The first address of the block. -/
def lo (b : Block) : ℕ := b.address.toNat

/-- The address after the block, as an exact sum. -/
def hi (b : Block) : ℕ := b.address.toNat + b.bytes.toNat

def Aligned (b : Block) : Prop := b.alignment.toNat ∣ b.address.toNat

/-- `b` ends at or before the start of `c`. -/
def Below (b c : Block) : Prop := b.hi ≤ c.lo

instance (b : Block) : Decidable b.Aligned := inferInstanceAs (Decidable (_ ∣ _))

instance (b c : Block) : Decidable (b.Below c) := inferInstanceAs (Decidable (_ ≤ _))

end Block

namespace Mapping

def lo (m : Mapping) : ℕ := m.mappingBegin.toNat

/-- The first accessible address. -/
def guardEnd (m : Mapping) : ℕ := m.mappingBegin.toNat + m.guardBytes.toNat

def hi (m : Mapping) : ℕ := m.mappingBegin.toNat + m.mappingBytes.toNat

/-- Touching `x` faults: it lies in the protected pages. -/
def InGuard (m : Mapping) (x : ℕ) : Prop := m.lo ≤ x ∧ x < m.guardEnd

/-- The block lies wholly in the accessible region. -/
def Holds (m : Mapping) (b : Block) : Prop := m.guardEnd ≤ b.lo ∧ b.hi ≤ m.hi

instance (m : Mapping) (x : ℕ) : Decidable (m.InGuard x) := inferInstanceAs (Decidable (_ ∧ _))

instance (m : Mapping) (b : Block) : Decidable (m.Holds b) := inferInstanceAs (Decidable (_ ∧ _))

/-- The storage record a pool keeps of the mapping. -/
def storage (m : Mapping) : DownwardPoolStorage := ⟨m.mappingBegin, m.mappingBytes⟩

/-- A mapping made for requests of at most `maxAlloc` bytes, with pages of `page` bytes. -/
structure Guards (m : Mapping) (page maxAlloc : ℕ) : Prop where
  page_pow : page.isPowerOfTwo
  begin_ne : m.mappingBegin ≠ 0
  begin_dvd : page ∣ m.mappingBegin.toNat
  guard_dvd : page ∣ m.guardBytes.toNat
  bytes_dvd : page ∣ m.mappingBytes.toNat
  maxAlloc_le : maxAlloc ≤ m.guardBytes.toNat
  guard_le : m.guardBytes.toNat ≤ m.mappingBytes.toNat
  fits : m.mappingBegin.toNat + m.mappingBytes.toNat < 2 ^ 64

variable {m : Mapping} {page maxAlloc : ℕ}

theorem Guards.lo_pos (h : m.Guards page maxAlloc) : 0 < m.lo := by
  rw [lo, Nat.pos_iff_ne_zero]
  exact fun h0 => h.begin_ne (BitVec.eq_of_toNat_eq h0)

theorem Guards.lo_le_guardEnd (_ : m.Guards page maxAlloc) : m.lo ≤ m.guardEnd :=
  Nat.le_add_right _ _

theorem Guards.guardEnd_le_hi (h : m.Guards page maxAlloc) : m.guardEnd ≤ m.hi :=
  Nat.add_le_add_left h.guard_le _

theorem Guards.dvd_lo (h : m.Guards page maxAlloc) {a : ℕ} (ha : a.isPowerOfTwo)
    (hle : a ≤ page) : a ∣ m.lo :=
  (dvd_of_isPowerOfTwo_of_le ha h.page_pow hle).trans h.begin_dvd

theorem Guards.dvd_guardEnd (h : m.Guards page maxAlloc) {a : ℕ} (ha : a.isPowerOfTwo)
    (hle : a ≤ page) : a ∣ m.guardEnd :=
  Nat.dvd_add (h.dvd_lo ha hle)
    ((dvd_of_isPowerOfTwo_of_le ha h.page_pow hle).trans h.guard_dvd)

/-- The last page of the address space is never mapped. -/
theorem Guards.hi_add_page_le (h : m.Guards page maxAlloc) : m.hi + page ≤ 2 ^ 64 := by
  have hdvd : page ∣ m.hi := Nat.dvd_add h.begin_dvd h.bytes_dvd
  have hfits : m.hi < 2 ^ 64 := h.fits
  have hpage : page ∣ 2 ^ 64 := by
    have hle : page ≤ 2 ^ 64 :=
      (Nat.le_of_dvd h.lo_pos h.begin_dvd).trans m.mappingBegin.isLt.le
    exact dvd_of_isPowerOfTwo_of_le h.page_pow ⟨64, rfl⟩ hle
  have := Nat.le_of_dvd (by omega) (Nat.dvd_sub hpage hdvd)
  omega

/-- The mapping end as the pools compute it. -/
theorem Guards.toNat_mappingEnd (h : m.Guards page maxAlloc) :
    (downwardPoolMappingEnd m.storage).toNat = m.hi :=
  toNat_downwardPoolMappingEnd m.storage h.begin_ne h.fits

end Mapping

/-- A successful construction leaves a mapping whose guard covers `maxAllocSize`, provided the
rounding of `maxAllocSize` to the page does not wrap. -/
theorem makeDownwardPoolStorage_guards {os : Os} {usableBytes maxAllocSize : SizeT}
    {process process' : Process} {storage : DownwardPoolStorage} (hos : os.Lawful)
    (hmax : maxAllocSize.toNat + (os.page - 1) < 2 ^ 64)
    (h : makeDownwardPoolStorage os usableBytes maxAllocSize process = (.ok storage, process')) :
    ∃ m : Mapping, m.Guards os.page maxAllocSize.toNat ∧ m.storage = storage ∧
      m.guardBytes.toNat = ceilTo maxAllocSize.toNat os.page ∧
      m.hi = m.guardEnd + (roundUp usableBytes (BitVec.ofInt 64 os.pageSize)).toNat ∧
      process'.mappings = m :: process.mappings := by
  obtain ⟨u, g, hu, hg, hsum, hbytes, hmap, hmappings⟩ := makeDownwardPoolStorage_ok hos h
  have hgn : g.toNat = ceilTo maxAllocSize.toNat os.page := by
    rw [hg]
    exact toNat_roundUp hos.pageSize_pow hmax
  have hadd : (u + g).toNat = u.toNat + g.toNat := by
    rw [BitVec.toNat_add, Nat.mod_eq_of_lt hsum]
  refine ⟨⟨storage.mappingBegin, u + g, g⟩, ?_, ?_, hgn, ?_, hmappings⟩
  · exact
      { page_pow := hos.pageSize_pow
        begin_ne := hos.mmap_ne_zero _ _ hmap
        begin_dvd := hos.mmap_aligned _ _ hmap
        guard_dvd := by
          rw [hg]
          exact dvd_roundUp hos.pageSize_pow
        bytes_dvd := by
          show os.page ∣ (u + g).toNat
          rw [hadd, hu, hg]
          exact Nat.dvd_add (dvd_roundUp hos.pageSize_pow) (dvd_roundUp hos.pageSize_pow)
        maxAlloc_le := by
          rw [hgn]
          exact le_ceilTo hos.page_pos _
        guard_le := by
          show g.toNat ≤ (u + g).toNat
          omega
        fits := hos.mmap_fits _ _ hmap }
  · simp [Mapping.storage, ← hbytes]
  · simp only [Mapping.hi, Mapping.guardEnd, hadd, ← hu]
    omega

/-! ## The pool -/

structure DownwardPool where
  storage : DownwardPoolStorage
  cursor : UIntPtr
  deriving DecidableEq, Repr

namespace DownwardPool

def make (os : Os) (usableBytes maxAllocSize : SizeT) (process : Process) :
    Except PoolError DownwardPool × Process :=
  match makeDownwardPoolStorage os usableBytes maxAllocSize process with
  | (.error e, process) => (.error e, process)
  | (.ok storage, process) => (.ok ⟨storage, downwardPoolMappingEnd storage⟩, process)

/-- The returned address and the pool after the call. -/
def allocate (pool : DownwardPool) (bytes alignment : SizeT) : UIntPtr × DownwardPool :=
  let current := pool.cursor
  let cursor := alignDownwardPoolCursor current bytes alignment
  (cursor, { pool with cursor := cursor })

def reset (pool : DownwardPool) : DownwardPool :=
  { pool with cursor := downwardPoolMappingEnd pool.storage }

def release (pool : DownwardPool) (process : Process) : DownwardPool × Process :=
  let (storage, process) := releaseDownwardPoolStorage pool.storage process
  (⟨storage, 0⟩, process)

/-- The pool that is moved to, and the one that is moved from. -/
def moveFrom (pool other : DownwardPool) : DownwardPool × DownwardPool :=
  ({ pool with storage := other.storage, cursor := other.cursor },
    { other with storage := .empty, cursor := 0 })

/-- The move constructor: the new pool, and the one that is moved from. -/
def moveConstruct (other : DownwardPool) : DownwardPool × DownwardPool :=
  moveFrom ⟨.empty, 0⟩ other

/-- The move assignment between two objects. -/
def moveAssign (pool other : DownwardPool) (process : Process) :
    (DownwardPool × DownwardPool) × Process :=
  let (pool, process) := pool.release process
  (pool.moveFrom other, process)

def usableBytes (os : Os) (pool : DownwardPool) : SizeT :=
  downwardPoolUsableBytes os pool.storage

def usedBytes (pool : DownwardPool) : SizeT := downwardPoolUsedBytes pool.cursor pool.storage

theorem make_ok {os : Os} {usableBytes maxAllocSize : SizeT} {process process' : Process}
    {pool : DownwardPool} (h : make os usableBytes maxAllocSize process = (.ok pool, process')) :
    makeDownwardPoolStorage os usableBytes maxAllocSize process = (.ok pool.storage, process') ∧
      pool.cursor = downwardPoolMappingEnd pool.storage := by
  unfold make at h
  split at h
  · simp at h
  · rename_i storage process'' hmake
    simp only [Prod.mk.injEq, Except.ok.injEq] at h
    obtain ⟨rfl, rfl⟩ := h
    exact ⟨hmake, rfl⟩

end DownwardPool

/-! ## Under a mutex -/

/-- A pool whose operations hold a mutex. What one of them does is what the pool's does; the type
has no move operations. -/
structure MutexDownwardPool where
  pool : DownwardPool
  deriving DecidableEq, Repr

namespace MutexDownwardPool

def make (os : Os) (usableBytes maxAllocSize : SizeT) (process : Process) :
    Except PoolError MutexDownwardPool × Process :=
  match DownwardPool.make os usableBytes maxAllocSize process with
  | (.error e, process) => (.error e, process)
  | (.ok pool, process) => (.ok ⟨pool⟩, process)

def allocate (m : MutexDownwardPool) (bytes alignment : SizeT) : UIntPtr × MutexDownwardPool :=
  let (address, pool) := m.pool.allocate bytes alignment
  (address, ⟨pool⟩)

def reset (m : MutexDownwardPool) : MutexDownwardPool := ⟨m.pool.reset⟩

def release (m : MutexDownwardPool) (process : Process) : MutexDownwardPool × Process :=
  let (pool, process) := m.pool.release process
  (⟨pool⟩, process)

def usableBytes (os : Os) (m : MutexDownwardPool) : SizeT := m.pool.usableBytes os

def usedBytes (m : MutexDownwardPool) : SizeT := m.pool.usedBytes

end MutexDownwardPool

/-! ## Runs that touch every block -/

/-- A pool in use: the blocks returned since the last reset (the latest first), and the block
whose first access faulted, after which the process takes no further step. -/
structure PoolRun where
  pool : DownwardPool
  blocks : List Block
  fault : Option Block
  deriving DecidableEq, Repr

inductive PoolOp
  | allocate (bytes alignment : SizeT)
  | reset
  deriving DecidableEq, Repr

namespace PoolOp

/-- The requests the pool was built for: at least one byte, at most `maxAlloc`, and an alignment
that is a power of two not above the page size. -/
def Within (page maxAlloc : ℕ) : PoolOp → Prop
  | allocate bytes alignment =>
    1 ≤ bytes.toNat ∧ bytes.toNat ≤ maxAlloc ∧ alignment.toNat.isPowerOfTwo ∧
      alignment.toNat ≤ page
  | reset => True

end PoolOp

namespace PoolRun

def start (pool : DownwardPool) : PoolRun := ⟨pool, [], none⟩

/-- One call; `allocate` is followed by the touch of the block's first byte. -/
def next (m : Mapping) (s : PoolRun) (op : PoolOp) : Option PoolRun :=
  match s.fault, op with
  | some _, _ => none
  | none, .reset => some ⟨s.pool.reset, [], none⟩
  | none, .allocate bytes alignment =>
    let (address, pool) := s.pool.allocate bytes alignment
    let block : Block := ⟨address, bytes, alignment⟩
    if m.InGuard block.lo then some ⟨pool, s.blocks, some block⟩
    else some ⟨pool, block :: s.blocks, none⟩

/-- The lowest address handed out since the last reset, or the mapping end. -/
def lowest (m : Mapping) (blocks : List Block) : ℕ := (blocks.head?.map Block.lo).getD m.hi

/-- What holds between the calls of a run. -/
structure Ok (m : Mapping) (s : PoolRun) : Prop where
  storage_eq : s.pool.storage = m.storage
  aligned : ∀ b ∈ s.blocks, b.Aligned
  inside : ∀ b ∈ s.blocks, m.Holds b
  stacked : s.blocks.Pairwise Block.Below
  cursor_eq : s.fault = none → s.pool.cursor.toNat = lowest m s.blocks
  fault_in : ∀ b, s.fault = some b → b.Aligned ∧ m.InGuard b.lo

variable {m : Mapping} {page maxAlloc : ℕ}

theorem Ok.lowest_mem {s : PoolRun} (h : s.Ok m) (hm : m.Guards page maxAlloc) :
    m.guardEnd ≤ lowest m s.blocks ∧ lowest m s.blocks ≤ m.hi := by
  unfold lowest
  cases hb : s.blocks with
  | nil => exact ⟨hm.guardEnd_le_hi, le_rfl⟩
  | cons b bs =>
    have hin := h.inside b (by simp [hb])
    exact ⟨hin.1, (Nat.le_add_right _ _).trans hin.2⟩

/-- Every block of the run starts at or above the lowest one. -/
theorem Ok.lowest_le {s : PoolRun} (h : s.Ok m) : ∀ b ∈ s.blocks, lowest m s.blocks ≤ b.lo := by
  intro b hb
  have hst := h.stacked
  cases hbs : s.blocks with
  | nil => simp [hbs] at hb
  | cons c cs =>
    rw [hbs, List.pairwise_cons] at hst
    rw [hbs, List.mem_cons] at hb
    rcases hb with rfl | hb
    · exact le_rfl
    · exact (Nat.le_add_right _ _).trans (hst.1 b hb)

theorem start_ok (hm : m.Guards page maxAlloc) {pool : DownwardPool}
    (hs : pool.storage = m.storage) (hc : pool.cursor = downwardPoolMappingEnd pool.storage) :
    (start pool).Ok m where
  storage_eq := hs
  aligned := by simp [start]
  inside := by simp [start]
  stacked := by simp [start]
  cursor_eq _ := by
    show pool.cursor.toNat = _
    rw [hc, hs, hm.toNat_mappingEnd]
    rfl
  fault_in := by simp [start]

/-- The place of the next block: aligned, not below the mapping, and directly below everything
handed out so far. -/
theorem Ok.place (hm : m.Guards page maxAlloc) {s : PoolRun} (h : s.Ok m) (hf : s.fault = none)
    {bytes alignment : SizeT} (hop : (PoolOp.allocate bytes alignment).Within page maxAlloc) :
    alignment.toNat ∣ (s.pool.allocate bytes alignment).1.toNat ∧
      m.lo ≤ (s.pool.allocate bytes alignment).1.toNat ∧
      (s.pool.allocate bytes alignment).1.toNat + bytes.toNat ≤ lowest m s.blocks := by
  obtain ⟨-, hmax, hpow, hpage⟩ := hop
  have hlow := (h.lowest_mem hm).1
  have hcur := h.cursor_eq hf
  have hroom : m.lo + bytes.toNat ≤ s.pool.cursor.toNat := by
    have : bytes.toNat ≤ m.guardBytes.toNat := hmax.trans hm.maxAlloc_le
    rw [hcur]
    exact (Nat.add_le_add_left this _).trans hlow
  have hfit : bytes.toNat ≤ s.pool.cursor.toNat := (Nat.le_add_left _ _).trans hroom
  obtain ⟨hdvd, htop, -, hbelow⟩ := alignDownwardPoolCursor_spec s.pool.cursor bytes hpow hfit
  refine ⟨hdvd, ?_, hcur ▸ htop⟩
  -- the mapping start is a multiple of the alignment that leaves room for the bytes
  exact (hbelow m.lo (hm.dvd_lo hpow hpage)).mpr hroom

theorem next_ok (hm : m.Guards page maxAlloc) {s s' : PoolRun} {op : PoolOp} (h : s.Ok m)
    (hop : op.Within page maxAlloc) (hnext : next m s op = some s') : s'.Ok m := by
  cases hf : s.fault with
  | some b => simp [next, hf] at hnext
  | none =>
    cases op with
    | reset =>
      simp only [next, hf, Option.some.injEq] at hnext
      subst hnext
      exact start_ok hm h.storage_eq rfl
    | allocate bytes alignment =>
      obtain ⟨hdvd, hlo, htop⟩ := h.place hm hf hop
      have hhi := (h.lowest_mem hm).2
      simp only [next, hf] at hnext
      split at hnext
      · rename_i hguard
        obtain rfl := Option.some.inj hnext
        exact
          { storage_eq := h.storage_eq
            aligned := h.aligned
            inside := h.inside
            stacked := h.stacked
            cursor_eq := by simp
            fault_in := by
              rintro b hb
              obtain rfl := Option.some.inj hb
              exact ⟨hdvd, hguard⟩ }
      · rename_i hguard
        obtain rfl := Option.some.inj hnext
        -- outside the guard and not below the mapping is accessible
        have habove : m.guardEnd ≤ (s.pool.allocate bytes alignment).1.toNat := by
          by_contra hlt
          exact hguard ⟨hlo, not_le.mp hlt⟩
        exact
          { storage_eq := h.storage_eq
            aligned := List.forall_mem_cons.mpr ⟨hdvd, h.aligned⟩
            inside := List.forall_mem_cons.mpr ⟨⟨habove, htop.trans hhi⟩, h.inside⟩
            stacked := List.pairwise_cons.mpr
              ⟨fun b hb => htop.trans (h.lowest_le b hb), h.stacked⟩
            cursor_eq := fun _ => rfl
            fault_in := by simp }

theorem run_ok (hm : m.Guards page maxAlloc) {s s' : PoolRun} {ops : List PoolOp} (h : s.Ok m)
    (hops : ∀ op ∈ ops, op.Within page maxAlloc)
    (hrun : Transition.run (next m) s ops = some s') : s'.Ok m :=
  Transition.run_invariant (fun _ _ _ hs hop hn => next_ok hm hs hop hn) h hops hrun

/-- Until a fault, the used bytes are the distance from the mapping end down to the lowest block. -/
theorem Ok.usedBytes (hm : m.Guards page maxAlloc) {s : PoolRun} (h : s.Ok m)
    (hf : s.fault = none) : s.pool.usedBytes.toNat = m.hi - lowest m s.blocks := by
  have hlow := h.lowest_mem hm
  have hcur := h.cursor_eq hf
  have hne : s.pool.cursor ≠ 0 := by
    intro h0
    have h1 : s.pool.cursor.toNat = 0 := by simp [h0]
    have := hm.lo_pos
    have := hm.lo_le_guardEnd
    omega
  rw [DownwardPool.usedBytes, h.storage_eq,
    toNat_downwardPoolUsedBytes m.storage hm.begin_ne hm.fits
      (by rw [hcur]; exact hlow.2), if_neg hne, hcur]
  rfl

end PoolRun

/-- **An overflow of a `DownwardPool` lands in its guard.** In every run of `allocate` and `reset`
on a freshly built pool, with requests the pool was built for and the first byte of each block
touched before the next call: the blocks returned since the last reset are aligned, accessible and
each below the earlier ones, `used_bytes` is the distance from the mapping end to the lowest of
them, and a block whose touch faults starts in the guard, not below the mapping. A block that does
not fit the accessible region is always that faulting one. -/
theorem overflow_lands_in_guard {os : Os} {usableBytes maxAllocSize : SizeT}
    {process process' : Process} {pool : DownwardPool} (hos : os.Lawful)
    (hmax : maxAllocSize.toNat + (os.page - 1) < 2 ^ 64)
    (hmake : DownwardPool.make os usableBytes maxAllocSize process = (.ok pool, process')) :
    ∃ m ∈ process'.mappings, m.storage = pool.storage ∧ os.page ∣ m.lo ∧
      m.guardEnd = m.lo + ceilTo maxAllocSize.toNat os.page ∧
      ∀ ops : List PoolOp, (∀ op ∈ ops, op.Within os.page maxAllocSize.toNat) →
      ∀ s, Transition.run (PoolRun.next m) (PoolRun.start pool) ops = some s →
        (∀ b ∈ s.blocks, b.Aligned ∧ m.Holds b) ∧ s.blocks.Pairwise Block.Below ∧
        (s.fault = none → s.pool.usedBytes.toNat = m.hi - PoolRun.lowest m s.blocks) ∧
        ∀ b, s.fault = some b → b.Aligned ∧ m.InGuard b.lo := by
  obtain ⟨hstorage, hcursor⟩ := DownwardPool.make_ok hmake
  obtain ⟨m, hm, hms, hguard, -, hmem⟩ := makeDownwardPoolStorage_guards hos hmax hstorage
  refine ⟨m, by simp [hmem], hms, hm.begin_dvd, by rw [← hguard]; rfl, ?_⟩
  intro ops hops s hrun
  have h := PoolRun.run_ok hm (PoolRun.start_ok hm hms.symm hcursor) hops hrun
  exact ⟨fun b hb => ⟨h.aligned b hb, h.inside b hb⟩, h.stacked, h.usedBytes hm, h.fault_in⟩

/-- Two requests that fill two pages of storage, and a third one. -/
def threeRequests : List PoolOp := [.allocate 4096 1, .allocate 4096 16, .allocate 100 8]

/-- The blocks of the first two lie one below the other, and the third one faults in the guard. -/
theorem overflow_lands_in_guard_threeRequests :
    ∃ pool process m s, DownwardPool.make Os.fixed 8192 4096 ⟨[], none, []⟩ =
        (.ok pool, process) ∧ m ∈ process.mappings ∧
      Transition.run (PoolRun.next m) (PoolRun.start pool) threeRequests = some s ∧
      s.blocks = [⟨0x11000, 4096, 16⟩, ⟨0x12000, 4096, 1⟩] ∧ s.blocks.Pairwise Block.Below ∧
      s.fault = some ⟨0x10f98, 100, 8⟩ ∧ m.InGuard 0x10f98 := by
  obtain ⟨m, hmem, -, -, -, hruns⟩ := overflow_lands_in_guard Os.fixed_lawful (by decide)
    (show DownwardPool.make Os.fixed 8192 4096 ⟨[], none, []⟩ =
      (.ok ⟨⟨0x10000, 0x3000⟩, 0x13000⟩, _) from rfl)
  obtain rfl : m = ⟨0x10000, 0x3000, 0x1000⟩ := List.mem_singleton.mp hmem
  have hwithin : ∀ op ∈ threeRequests, op.Within Os.fixed.page 4096 := by
    simp only [threeRequests, List.mem_cons, List.not_mem_nil, or_false, forall_eq_or_imp,
      forall_eq]
    exact ⟨⟨by decide, by decide, ⟨0, rfl⟩, by decide⟩, ⟨by decide, by decide, ⟨4, rfl⟩, by decide⟩,
      ⟨by decide, by decide, ⟨3, rfl⟩, by decide⟩⟩
  obtain ⟨-, hbelow, -, hfault⟩ := hruns _ hwithin _ rfl
  exact ⟨_, _, _, _, rfl, hmem, rfl, rfl, hbelow, rfl, (hfault _ rfl).2⟩

end Doost.Pools
