import Doost.Pools.Downward

/-!
# The allocators over a pool

`DownwardPoolAllocator<T>` and `SequentialPoolAllocator<T, Pool>`, rebound to any element types over
one `DownwardPool`. A request for `n` elements becomes one for `n * sizeof(T)` bytes, a product of
words that nothing checks, and the cursor then moves down by that many bytes, again unchecked.
`allocators_reserve_iff` says for every run of calls when each of them reserves the bytes that were
asked for.
-/

namespace Doost.Pools

open AlignedWord Transition

/-- An element type, by its `sizeof` and `alignof`. -/
structure ElementType where
  size : SizeT
  alignment : SizeT
  size_pos : 0 < size.toNat
  pow : alignment.toNat.isPowerOfTwo
  dvd_size : alignment.toNat ∣ size.toNat

/-- What `allocate(n)` of either allocator does: the returned pointer, and the pool after the
call. -/
def poolAllocate (pool : DownwardPool) (T : ElementType) (n : SizeT) : UIntPtr × DownwardPool :=
  pool.allocate (n * T.size) T.alignment

/-- `DownwardPoolAllocator<T>::allocate`. -/
def DownwardPoolAllocator.allocate (pool : DownwardPool) (T : ElementType) (n : SizeT) :
    UIntPtr × DownwardPool :=
  poolAllocate pool T n

/-- `SequentialPoolAllocator<T, DownwardPool>::allocate`. -/
def SequentialPoolAllocator.allocate (pool : DownwardPool) (T : ElementType) (n : SizeT) :
    UIntPtr × DownwardPool :=
  poolAllocate pool T n

/-- A call through an allocator that is rebound to `T`. -/
inductive AllocatorCall
  | downward (T : ElementType) (n : SizeT)
  | sequential (T : ElementType) (n : SizeT)

namespace AllocatorCall

def elementType : AllocatorCall → ElementType
  | downward T _ => T
  | sequential T _ => T

def count : AllocatorCall → SizeT
  | downward _ n => n
  | sequential _ n => n

/-- `n * sizeof(T)` as an exact product. -/
def bytes (call : AllocatorCall) : ℕ := call.count.toNat * call.elementType.size.toNat

def perform (pool : DownwardPool) : AllocatorCall → UIntPtr × DownwardPool
  | downward T n => DownwardPoolAllocator.allocate pool T n
  | sequential T n => SequentialPoolAllocator.allocate pool T n

theorem perform_eq (pool : DownwardPool) (call : AllocatorCall) :
    call.perform pool = poolAllocate pool call.elementType call.count := by
  cases call <;> rfl

/-- The pool after a call: no call throws. -/
def next (pool : DownwardPool) (call : AllocatorCall) : Option DownwardPool :=
  some (call.perform pool).2

/-- The bytes that are asked for fit between address zero and the cursor. -/
def Fits (pool : DownwardPool) (call : AllocatorCall) : Prop := call.bytes ≤ pool.cursor.toNat

end AllocatorCall

/-- The elements a call has returned: the range from `address` on. -/
structure Reserved where
  address : UIntPtr
  call : AllocatorCall

namespace Reserved

def lo (r : Reserved) : ℕ := r.address.toNat

/-- The address after the last byte that was asked for. -/
def hi (r : Reserved) : ℕ := r.address.toNat + r.call.bytes

end Reserved

/-- What the calls return, in their order. -/
def reserved (pool : DownwardPool) : List AllocatorCall → List Reserved
  | [] => []
  | call :: calls =>
    let (address, pool) := call.perform pool
    ⟨address, call⟩ :: reserved pool calls

/-- The first range ends at or below `bound`, and each other one at or below the address that was
returned before it. -/
def EndBelow (bound : ℕ) : List Reserved → Prop
  | [] => True
  | r :: rs => r.hi ≤ bound ∧ EndBelow r.lo rs

theorem EndBelow.hi_le {bound : ℕ} {rs : List Reserved} (hrs : EndBelow bound rs) :
    ∀ r ∈ rs, r.hi ≤ bound := by
  induction rs generalizing bound with
  | nil => exact fun r hr => absurd hr List.not_mem_nil
  | cons r rs ih =>
    have hlo : r.lo ≤ bound := (Nat.le_add_right _ _).trans hrs.1
    intro r' hr'
    rcases List.mem_cons.mp hr' with rfl | hr'
    · exact hrs.1
    · exact (ih hrs.2 r' hr').trans hlo

/-- Ranges that end below each other do not overlap. -/
theorem EndBelow.pairwise {bound : ℕ} {rs : List Reserved} (hrs : EndBelow bound rs) :
    rs.Pairwise fun r r' => r'.hi ≤ r.lo := by
  induction rs generalizing bound with
  | nil => exact List.Pairwise.nil
  | cons r rs ih => exact List.pairwise_cons.mpr ⟨hrs.2.hi_le, ih hrs.2⟩

/-- **One call** reserves what was asked for if and only if there is room below the cursor. -/
theorem poolAllocate_iff (pool : DownwardPool) (T : ElementType) (n : SizeT) :
    (poolAllocate pool T n).1.toNat + n.toNat * T.size.toNat ≤ pool.cursor.toNat ↔
      n.toNat * T.size.toNat ≤ pool.cursor.toNat := by
  constructor
  · intro hle
    exact (Nat.le_add_left _ _).trans hle
  · intro hle
    have hbytes : (n * T.size).toNat = n.toNat * T.size.toNat := by
      rw [BitVec.toNat_mul, Nat.mod_eq_of_lt (hle.trans_lt pool.cursor.isLt)]
    have hspec := alignDownwardPoolCursor_spec pool.cursor (n * T.size) T.pow (hbytes ▸ hle)
    rw [hbytes] at hspec
    exact hspec.2.1

theorem endBelow_iff (pool : DownwardPool) (calls : List AllocatorCall) :
    EndBelow pool.cursor.toNat (reserved pool calls) ↔
      Along AllocatorCall.next AllocatorCall.Fits pool calls := by
  induction calls generalizing pool with
  | nil => exact Iff.rfl
  | cons call calls ih =>
    have hone := poolAllocate_iff pool call.elementType call.count
    rw [← AllocatorCall.perform_eq] at hone
    have hrest := ih (call.perform pool).2
    have hcursor : (call.perform pool).2.cursor = (call.perform pool).1 := by cases call <;> rfl
    rw [hcursor] at hrest
    constructor
    · rintro ⟨hhi, hbelow⟩
      refine ⟨hone.mp hhi, fun pool' hnext => ?_⟩
      obtain rfl := Option.some.inj hnext
      exact hrest.mp hbelow
    · rintro ⟨hfits, hlater⟩
      exact ⟨hone.mpr hfits, hrest.mpr (hlater _ rfl)⟩

/-- **The allocators reserve what was asked for if and only if every request fits.** The calls start
on a pool with its cursor at the mapping end, as `reset` and construction leave it. -/
theorem allocators_reserve_iff (pool : DownwardPool) (calls : List AllocatorCall) :
    (EndBelow (downwardPoolMappingEnd pool.storage).toNat (reserved pool.reset calls) ∧
        (reserved pool.reset calls).Pairwise fun r r' => r'.hi ≤ r.lo) ↔
      Along AllocatorCall.next AllocatorCall.Fits pool.reset calls := by
  rw [← endBelow_iff]
  exact ⟨fun hrs => hrs.1, fun hrs => ⟨hrs, hrs.pairwise⟩⟩

/-- The type of two `int`s: eight bytes, aligned to four. -/
def ElementType.pair : ElementType := ⟨8, 4, by decide, ⟨2, rfl⟩, by decide⟩

/-- A request for one element and one for `2 ^ 61`. -/
def wrappingCalls : List AllocatorCall :=
  [.downward .pair 1, .downward .pair 0x2000000000000000]

/-- For `2 ^ 61` elements of eight bytes the product is zero: after a request for one element of a
new pool, the same address is returned again. -/
theorem wrapped_product_reserves_nothing :
    ∃ pool process, DownwardPool.make Os.fixed 4096 4096 ⟨[], none, []⟩ = (.ok pool, process) ∧
      (reserved pool.reset wrappingCalls).map Reserved.address =
        [downwardPoolMappingEnd pool.storage - 8, downwardPoolMappingEnd pool.storage - 8] ∧
      ¬ EndBelow (downwardPoolMappingEnd pool.storage).toNat
        (reserved pool.reset wrappingCalls) := by
  refine ⟨_, _, rfl, by decide +kernel, ?_⟩
  rintro ⟨-, hhi, -⟩
  exact absurd hhi (by decide +kernel)

end Doost.Pools
