import Doost.Foundations.AlignedWord

/-!
# Pool storage

The mapping under every downward pool: `makeDownwardPoolStorage` asks the operating system for one
anonymous mapping of the page-rounded usable bytes plus a page-rounded guard, protects the guard at
the low end, and registers it with the overflow handler. The cursor arithmetic shared by the pools
(`alignDownwardPoolCursor`, `downwardPoolUsedBytes`) is here too.

`size_t` and `uintptr_t` are 64-bit words, so that every sum and difference wraps as it does in the
source. The operating system is a parameter (`Os`); what is relied on from it is `Os.Lawful`.
-/

namespace Doost.Pools

open AlignedWord

/-- `std::size_t`. -/
abbrev SizeT := BitVec 64

/-- `std::uintptr_t`. -/
abbrev UIntPtr := BitVec 64

structure DownwardPoolStorage where
  mappingBegin : UIntPtr
  mappingBytes : SizeT
  deriving DecidableEq, Repr

/-- The value-initialised storage of a pool that owns nothing. -/
def DownwardPoolStorage.empty : DownwardPoolStorage := ⟨0, 0⟩

/-! ## Cursor arithmetic -/

def downwardPoolMappingEnd (storage : DownwardPoolStorage) : UIntPtr :=
  if storage.mappingBegin = 0 then 0 else storage.mappingBegin + storage.mappingBytes

def alignDownwardPoolCursor (current : UIntPtr) (bytes alignment : SizeT) : UIntPtr :=
  let raw := current - bytes
  raw &&& ~~~(alignment - 1)

def downwardPoolUsedBytes (cursor : UIntPtr) (storage : DownwardPoolStorage) : SizeT :=
  let upper := downwardPoolMappingEnd storage
  if cursor = 0 ∨ upper = 0 ∨ upper ≤ cursor then 0 else upper - cursor

def roundUp (value multiple : SizeT) : SizeT :=
  let mask := multiple - 1
  (value + mask) &&& ~~~mask

/-! ## The operating system -/

/-- What the system calls of one construction answer. -/
structure Os where
  /-- `sysconf(_SC_PAGESIZE)`. -/
  pageSize : ℤ
  /-- The address `mmap` returns for a length, `none` for `MAP_FAILED`. -/
  mmap : SizeT → Option UIntPtr
  /-- Whether `mprotect` of the guard returns 0. -/
  mprotect : UIntPtr → SizeT → Bool
  /-- `errno` after a failed call. -/
  errno : ℕ

inductive OsCall
  | mmap (bytes : SizeT)
  | mprotect (address : UIntPtr) (bytes : SizeT)
  | munmap (address : UIntPtr) (bytes : SizeT)
  deriving DecidableEq, Repr

inductive PoolError
  | lengthError (what : String)
  | systemError (code : ℕ) (what : String)
  deriving DecidableEq, Repr

/-- A live mapping, with the bytes at its low end that are `PROT_NONE`. -/
structure Mapping where
  mappingBegin : UIntPtr
  mappingBytes : SizeT
  guardBytes : SizeT
  deriving DecidableEq, Repr

structure PoolRegistryEntry where
  guardBegin : UIntPtr
  guardEnd : UIntPtr
  deriving DecidableEq, Repr

/-- The part of the process that construction and release of pools change. -/
structure Process where
  mappings : List Mapping
  /-- `g_pool_registry`; `none` when the handler is not compiled in. -/
  poolRegistry : Option (List PoolRegistryEntry)
  /-- The memory-mapping calls made so far, the latest first. -/
  calls : List OsCall
  deriving DecidableEq, Repr

/-! ## The guard registry -/

/-- Claim the first entry whose `guard_begin` is zero; a full registry is left as it is. -/
def registerPoolGuard (guardBegin guardEnd : UIntPtr) :
    List PoolRegistryEntry → List PoolRegistryEntry
  | [] => []
  | entry :: rest =>
    if entry.guardBegin = 0 then ⟨guardBegin, guardEnd⟩ :: rest
    else entry :: registerPoolGuard guardBegin guardEnd rest

/-- Clear the first entry that holds `begin`. -/
def clearPoolGuard (begin : UIntPtr) : List PoolRegistryEntry → List PoolRegistryEntry
  | [] => []
  | entry :: rest =>
    if entry.guardBegin = begin then ⟨0, 0⟩ :: rest else entry :: clearPoolGuard begin rest

def unregisterPoolGuard (guardBegin : UIntPtr) (registry : List PoolRegistryEntry) :
    List PoolRegistryEntry :=
  if guardBegin = 0 then registry else clearPoolGuard guardBegin registry

/-! ## Construction and release -/

/-- `EINVAL`, reported when `sysconf` fails without setting `errno`. -/
def einval : ℕ := 22

def systemPageSize (os : Os) : Except PoolError SizeT :=
  if os.pageSize ≤ 0 then
    .error (.systemError (if os.errno = 0 then einval else os.errno) "sysconf(_SC_PAGESIZE) failed")
  else .ok (BitVec.ofInt 64 os.pageSize)

def systemPageSizeNoexcept (os : Os) : SizeT :=
  if os.pageSize ≤ 0 then 0 else BitVec.ofInt 64 os.pageSize

/-- The mapping calls of `make_downward_pool_storage`, once the page size is known. -/
def mapPoolStorage (os : Os) (roundedUsableBytes guardPageBytes : SizeT) (process : Process) :
    Except PoolError DownwardPoolStorage × Process :=
  let mappingBytes := roundedUsableBytes + guardPageBytes
  let process := { process with calls := .mmap mappingBytes :: process.calls }
  match os.mmap mappingBytes with
  | none => (.error (.systemError os.errno "mmap failed"), process)
  | some mappingBegin =>
    let process :=
      { process with calls := .mprotect mappingBegin guardPageBytes :: process.calls }
    if os.mprotect mappingBegin guardPageBytes then
      (.ok ⟨mappingBegin, mappingBytes⟩,
        { process with
          mappings := ⟨mappingBegin, mappingBytes, guardPageBytes⟩ :: process.mappings
          poolRegistry := process.poolRegistry.map
            (registerPoolGuard mappingBegin (mappingBegin + guardPageBytes)) })
    else
      (.error (.systemError os.errno "mprotect failed"),
        { process with calls := .munmap mappingBegin mappingBytes :: process.calls })

def makeDownwardPoolStorage (os : Os) (usableBytes maxAllocSize : SizeT) (process : Process) :
    Except PoolError DownwardPoolStorage × Process :=
  match systemPageSize os with
  | .error e => (.error e, process)
  | .ok pageSize =>
    let roundedUsableBytes := roundUp usableBytes pageSize
    let guardPageBytes := roundUp maxAllocSize pageSize
    if BitVec.allOnes 64 - guardPageBytes < roundedUsableBytes then
      (.error (.lengthError "pool mapping size overflows size_t"), process)
    else mapPoolStorage os roundedUsableBytes guardPageBytes process

def downwardPoolUsableBytes (os : Os) (storage : DownwardPoolStorage) : SizeT :=
  if storage.mappingBytes = 0 then 0
  else
    let guardPageBytes := systemPageSizeNoexcept os
    if guardPageBytes = 0 ∨ storage.mappingBytes ≤ guardPageBytes then 0
    else storage.mappingBytes - guardPageBytes

def releaseDownwardPoolStorage (storage : DownwardPoolStorage) (process : Process) :
    DownwardPoolStorage × Process :=
  let process :=
    { process with
      poolRegistry := process.poolRegistry.map (unregisterPoolGuard storage.mappingBegin) }
  if storage.mappingBegin = 0 then (.empty, process)
  else
    (.empty,
      { process with
        mappings := process.mappings.filter (·.mappingBegin ≠ storage.mappingBegin)
        calls := .munmap storage.mappingBegin storage.mappingBytes :: process.calls })

/-! ## What is relied on from the operating system -/

/-- The documented behaviour of `sysconf` and `mmap`: the page size is a power of two that fits a
word, a mapping of no bytes is refused, and a mapping starts at a nonzero page boundary and ends
inside the address space. -/
structure Os.Lawful (os : Os) : Prop where
  pageSize_pos : 0 < os.pageSize
  pageSize_pow : (BitVec.ofInt 64 os.pageSize).toNat.isPowerOfTwo
  mmap_zero : os.mmap 0 = none
  mmap_ne_zero : ∀ bytes begin, os.mmap bytes = some begin → begin ≠ 0
  mmap_aligned : ∀ bytes begin, os.mmap bytes = some begin →
    (BitVec.ofInt 64 os.pageSize).toNat ∣ begin.toNat
  mmap_fits : ∀ bytes begin, os.mmap bytes = some begin →
    begin.toNat + bytes.toNat < 2 ^ 64

/-- The page size as a number. -/
def Os.page (os : Os) : ℕ := (BitVec.ofInt 64 os.pageSize).toNat

theorem Os.Lawful.page_pos {os : Os} (h : os.Lawful) : 0 < os.page :=
  Nat.pos_of_isPowerOfTwo h.pageSize_pow

/-- A machine with 4096-byte pages that maps everything at one address. -/
def Os.fixed : Os where
  pageSize := 4096
  mmap bytes := if bytes = 0 ∨ 2 ^ 63 ≤ bytes.toNat then none else some 0x10000
  mprotect _ _ := true
  errno := 12

theorem Os.fixed_lawful : Os.fixed.Lawful where
  pageSize_pos := by decide
  pageSize_pow := ⟨12, rfl⟩
  mmap_zero := rfl
  mmap_ne_zero := by
    intro bytes begin h
    simp only [Os.fixed, Option.ite_none_left_eq_some, Option.some.injEq] at h
    rw [← h.2]
    decide
  mmap_aligned := by
    intro bytes begin h
    simp only [Os.fixed, Option.ite_none_left_eq_some, Option.some.injEq] at h
    rw [← h.2]
    exact ⟨16, rfl⟩
  mmap_fits := by
    intro bytes begin h
    simp only [Os.fixed, Option.ite_none_left_eq_some, Option.some.injEq, not_or, not_le] at h
    rw [← h.2]
    have : (0x10000 : UIntPtr).toNat = 0x10000 := rfl
    omega

/-! ## Lemmas -/

theorem alignDownwardPoolCursor_eq (current : UIntPtr) (bytes alignment : SizeT) :
    alignDownwardPoolCursor current bytes alignment = roundDown (current - bytes) alignment := rfl

theorem roundUp_eq (value multiple : SizeT) :
    roundUp value multiple = roundDown (value + (multiple - 1)) multiple := rfl

theorem toNat_roundUp {value multiple : SizeT} (hm : multiple.toNat.isPowerOfTwo)
    (hv : value.toNat + (multiple.toNat - 1) < 2 ^ 64) :
    (roundUp value multiple).toNat = ceilTo value.toNat multiple.toNat := by
  rw [roundUp_eq, toNat_roundDown_add hm (toNat_sub_one (Nat.pos_of_isPowerOfTwo hm)) hv]

theorem dvd_roundUp {value multiple : SizeT} (hm : multiple.toNat.isPowerOfTwo) :
    multiple.toNat ∣ (roundUp value multiple).toNat := by
  rw [roundUp_eq]
  exact dvd_roundDown hm _

/-- The place of a block of `bytes` bytes cut off below `current`: aligned, below `current`, and
above every multiple of the alignment that leaves room for the bytes. -/
theorem alignDownwardPoolCursor_spec (current : UIntPtr) (bytes : SizeT) {alignment : SizeT}
    (ha : alignment.toNat.isPowerOfTwo) (hb : bytes.toNat ≤ current.toNat) :
    alignment.toNat ∣ (alignDownwardPoolCursor current bytes alignment).toNat ∧
      (alignDownwardPoolCursor current bytes alignment).toNat + bytes.toNat ≤ current.toNat ∧
      current.toNat <
        (alignDownwardPoolCursor current bytes alignment).toNat + bytes.toNat + alignment.toNat ∧
      ∀ m, alignment.toNat ∣ m →
        (m ≤ (alignDownwardPoolCursor current bytes alignment).toNat ↔
          m + bytes.toNat ≤ current.toNat) := by
  have hsub : (current - bytes).toNat = current.toNat - bytes.toNat :=
    BitVec.toNat_sub_of_le (BitVec.le_def.mpr hb)
  have hle := roundDown_le ha (current - bytes)
  have hlt := lt_roundDown_add ha (current - bytes)
  rw [alignDownwardPoolCursor_eq]
  refine ⟨dvd_roundDown ha _, by omega, by omega, fun m hm => ?_⟩
  rw [le_roundDown_iff ha hm, hsub]
  omega

theorem toNat_downwardPoolMappingEnd (storage : DownwardPoolStorage)
    (hne : storage.mappingBegin ≠ 0)
    (hfit : storage.mappingBegin.toNat + storage.mappingBytes.toNat < 2 ^ 64) :
    (downwardPoolMappingEnd storage).toNat =
      storage.mappingBegin.toNat + storage.mappingBytes.toNat := by
  rw [downwardPoolMappingEnd, if_neg hne, BitVec.toNat_add, Nat.mod_eq_of_lt hfit]

/-- With a cursor inside the address space below the mapping end, the used bytes are the distance
to the end; a null cursor counts as nothing used. -/
theorem toNat_downwardPoolUsedBytes (storage : DownwardPoolStorage) {cursor : UIntPtr}
    (hne : storage.mappingBegin ≠ 0)
    (hfit : storage.mappingBegin.toNat + storage.mappingBytes.toNat < 2 ^ 64)
    (hc : cursor.toNat ≤ storage.mappingBegin.toNat + storage.mappingBytes.toNat) :
    (downwardPoolUsedBytes cursor storage).toNat =
      if cursor = 0 then 0
      else storage.mappingBegin.toNat + storage.mappingBytes.toNat - cursor.toNat := by
  have hend := toNat_downwardPoolMappingEnd storage hne hfit
  have hb : 0 < storage.mappingBegin.toNat := by
    rw [Nat.pos_iff_ne_zero]
    exact fun h => hne (BitVec.eq_of_toNat_eq h)
  have hend0 : downwardPoolMappingEnd storage ≠ 0 := by
    intro h
    rw [h] at hend
    simp only [BitVec.ofNat_eq_ofNat, BitVec.toNat_ofNat, Nat.zero_mod] at hend
    omega
  simp only [downwardPoolUsedBytes]
  by_cases h0 : cursor = 0
  · simp [h0]
  · by_cases hle : downwardPoolMappingEnd storage ≤ cursor
    · rw [if_pos (Or.inr (Or.inr hle)), if_neg h0]
      rw [BitVec.le_def] at hle
      simp only [BitVec.ofNat_eq_ofNat, BitVec.toNat_ofNat, Nat.zero_mod]
      omega
    · have hneg : ¬(cursor = 0 ∨ downwardPoolMappingEnd storage = 0 ∨
          downwardPoolMappingEnd storage ≤ cursor) := by
        rw [not_or, not_or]
        exact ⟨h0, hend0, hle⟩
      rw [if_neg hneg, if_neg h0,
        BitVec.toNat_sub_of_le (BitVec.le_of_lt (BitVec.not_le.mp hle)), hend]

/-- What a successful construction has done. -/
theorem makeDownwardPoolStorage_ok {os : Os} {usableBytes maxAllocSize : SizeT}
    {process process' : Process} {storage : DownwardPoolStorage} (hos : os.Lawful)
    (h : makeDownwardPoolStorage os usableBytes maxAllocSize process = (.ok storage, process')) :
    ∃ u g : SizeT, u = roundUp usableBytes (BitVec.ofInt 64 os.pageSize) ∧
      g = roundUp maxAllocSize (BitVec.ofInt 64 os.pageSize) ∧
      u.toNat + g.toNat < 2 ^ 64 ∧ storage.mappingBytes = u + g ∧
      os.mmap (u + g) = some storage.mappingBegin ∧
      process'.mappings = ⟨storage.mappingBegin, u + g, g⟩ :: process.mappings := by
  have hpage : systemPageSize os = .ok (BitVec.ofInt 64 os.pageSize) := by
    simp [systemPageSize, not_le.mpr hos.pageSize_pos]
  simp only [makeDownwardPoolStorage, hpage] at h
  refine ⟨_, _, rfl, rfl, ?_⟩
  split at h
  · simp at h
  · rename_i hsum
    simp only [mapPoolStorage] at h
    split at h
    · simp at h
    · rename_i begin hmap
      split at h
      · simp only [Prod.mk.injEq, Except.ok.injEq] at h
        obtain ⟨rfl, rfl⟩ := h
        refine ⟨?_, rfl, hmap, rfl⟩
        have hlt := (roundUp maxAllocSize (BitVec.ofInt 64 os.pageSize)).isLt
        have hle : roundUp maxAllocSize (BitVec.ofInt 64 os.pageSize) ≤ BitVec.allOnes 64 := by
          rw [BitVec.le_def, BitVec.toNat_allOnes]
          omega
        rw [BitVec.not_lt, BitVec.le_def, BitVec.toNat_sub_of_le hle, BitVec.toNat_allOnes] at hsum
        omega
      · simp at h

end Doost.Pools
