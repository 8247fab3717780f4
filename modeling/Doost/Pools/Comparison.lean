import Doost.Pools.Nonblocking

/-!
# The non-blocking pool beside the sequential one

`NonblockingDownwardPool::allocate` takes the bytes of a request from the cursor before it places
the block, so that it has to take the padding of the worst case and a multiple of 16. A
`DownwardPool` that is given the same requests, in the order of the `fetch_sub`s, takes what the
cursor makes necessary (`DownwardPool.replay`). In every interleaving the block of the sequential
pool lies at or above that of the non-blocking one, and never higher than what the calls so far have
reserved beyond their bytes (`nonblocking_beside_sequential`); where there is nothing to pad or to
round, the two pools hand out the same blocks.
-/

namespace Doost.Pools

open AlignedWord DownwardStack

namespace DownwardPool

/-- The pool after the requests of these `fetch_sub`s, the latest first. -/
def replay (pool : DownwardPool) : List Taken → DownwardPool
  | [] => pool
  | x :: earlier => ((pool.replay earlier).allocate x.bytes x.alignment).2

/-- The block for the request of `x` when those of `earlier` have been served. -/
def blockAfter (pool : DownwardPool) (earlier : List Taken) (x : Taken) : Block :=
  ⟨((pool.replay earlier).allocate x.bytes x.alignment).1, x.bytes, x.alignment⟩

@[simp]
theorem replay_storage (pool : DownwardPool) (taken : List Taken) :
    (pool.replay taken).storage = pool.storage := by
  induction taken with
  | nil => rfl
  | cons x earlier ih => exact ih

/-- The cursor is at the latest block. -/
theorem toNat_replay_cons (pool : DownwardPool) (earlier : List Taken) (x : Taken) :
    (pool.replay (x :: earlier)).cursor.toNat = (pool.blockAfter earlier x).lo := rfl

end DownwardPool

namespace Taken

/-- What a call may reserve beyond its bytes. -/
def slack (x : Taken) : ℕ := padding x.alignment.toNat + 15

/-- The reservation of the call is its bytes: they need no rounding, and the alignment no
padding. -/
def Exact (x : Taken) : Prop := 16 ∣ x.bytes.toNat ∧ x.alignment.toNat ≤ 16

instance (x : Taken) : Decidable x.Exact := inferInstanceAs (Decidable (_ ∧ _))

variable {x : Taken} {pool : DownwardPool} {earlier : List Taken}

theorem size_le (hv : Request.Valid x.bytes x.alignment) : x.size ≤ x.bytes.toNat + x.slack := by
  have hlt := ceilTo_lt_add (a := 16) (by decide) (x.bytes.toNat + padding x.alignment.toNat)
  unfold size slack
  rw [toNat_reservation hv]
  omega

theorem Exact.size_eq (h : x.Exact) (hv : Request.Valid x.bytes x.alignment) :
    x.size = x.bytes.toNat := by
  have hpad : padding x.alignment.toNat = 0 := if_neg (by have := h.2; omega)
  unfold size
  rw [toNat_reservation hv, hpad, Nat.add_zero]
  exact le_antisymm (ceilTo_le h.1 le_rfl) (le_ceilTo (by decide) _)

/-- A pool whose cursor is not below the value read places the block no lower. -/
theorem block_le_blockAfter (pool : DownwardPool) (earlier : List Taken)
    (hv : Request.Valid x.bytes x.alignment) (h16 : 16 ∣ x.top)
    (hsize : x.size ≤ x.top) (hcursor : x.top ≤ (pool.replay earlier).cursor.toNat) :
    x.block.lo ≤ (pool.blockAfter earlier x).lo ∧
      (pool.blockAfter earlier x).hi ≤ (pool.replay earlier).cursor.toNat := by
  obtain ⟨haligned, -, hhi⟩ := block_inside hv h16 hsize
  have hbytes := le_reservation hv
  change x.bytes.toNat + _ ≤ x.size at hbytes
  obtain ⟨-, htop, -, hbelow⟩ :=
    alignDownwardPoolCursor_spec (pool.replay earlier).cursor x.bytes hv.pow (by omega)
  exact ⟨(hbelow x.block.lo haligned).mpr (hhi.trans hcursor), htop⟩

/-- A pool whose cursor is at the value read leaves it where an exact call leaves it. -/
theorem Exact.blockAfter_eq (h : x.Exact) (hv : Request.Valid x.bytes x.alignment)
    (h16 : 16 ∣ x.top) (hsize : x.size ≤ x.top)
    (hcursor : (pool.replay earlier).cursor = x.current) :
    pool.blockAfter earlier x = x.block ∧ x.block.lo + x.size = x.top := by
  refine ⟨by rw [DownwardPool.blockAfter, DownwardPool.allocate, hcursor]; rfl, ?_⟩
  obtain ⟨-, hlo, hhi⟩ := block_inside hv h16 hsize
  have hbytes := h.size_eq hv
  have hblock : x.block.hi = x.block.lo + x.bytes.toNat := rfl
  omega

end Taken

/-! ## Along the `fetch_sub`s -/

/-- `fetch_sub`s of valid requests on a cursor that has come down from `E` and has not wrapped, the
latest first. -/
structure Served (E : ℕ) (taken : List Taken) : Prop where
  stacked : Stacked Taken.size Taken.top E taken
  valid : ∀ x ∈ taken, Request.Valid x.bytes x.alignment
  total_le : total Taken.size taken ≤ E

namespace Served

variable {pool : DownwardPool} {E : ℕ} {taken later earlier : List Taken} {x : Taken}

theorem of_append (h : Served E (later ++ earlier)) : Served E earlier where
  stacked := h.stacked.of_append
  valid y hy := h.valid y (List.mem_append_right _ hy)
  total_le := by
    have htotal := h.total_le
    rw [total_append] at htotal
    omega

theorem tail (h : Served E (x :: earlier)) : Served E earlier := by
  rw [← List.singleton_append] at h
  exact h.of_append

/-- The value that the latest `fetch_sub` read. -/
theorem latest (h : Served E (x :: earlier)) (h16 : 16 ∣ E) :
    x.top + total Taken.size earlier = E ∧ x.size ≤ x.top ∧ 16 ∣ x.top := by
  have htotal := h.total_le
  rw [total_cons] at htotal
  have htop := h.stacked.1 (by omega)
  refine ⟨htop, by omega, ?_⟩
  exact h.stacked.dvd_top h.total_le h16 (fun y => dvd_reservation y.bytes y.alignment) x (by simp)

/-- The cursor of the sequential pool is not below that of the non-blocking one, and above it by no
more than the slack. -/
theorem cursor_between (pool : DownwardPool) (h : Served E taken) (h16 : 16 ∣ E)
    (hcursor : pool.cursor.toNat = E) :
    (pool.replay taken).cursor.toNat ≤ E ∧
      E ≤ (pool.replay taken).cursor.toNat + total Taken.size taken ∧
      (pool.replay taken).cursor.toNat + total Taken.size taken ≤
        E + total Taken.slack taken := by
  induction taken with
  | nil =>
    simp only [DownwardPool.replay, total_nil, hcursor]
    omega
  | cons x earlier ih =>
    have hv := h.valid x (by simp)
    obtain ⟨hstart, hlower, hupper⟩ := ih h.tail
    obtain ⟨htop, hsize, hdvd⟩ := h.latest h16
    obtain ⟨hblock, hbelow⟩ :=
      Taken.block_le_blockAfter pool earlier hv hdvd hsize (by omega)
    have hinside := (Taken.block_inside hv hdvd hsize).2.1
    have hhi : (pool.blockAfter earlier x).hi =
        (pool.blockAfter earlier x).lo + x.bytes.toNat := rfl
    have hbytes := Taken.size_le hv
    rw [DownwardPool.toNat_replay_cons, total_cons, total_cons]
    omega

/-- So it is with the blocks of the latest call. -/
theorem block_between (h : Served E (x :: earlier)) (h16 : 16 ∣ E)
    (hcursor : pool.cursor.toNat = E) :
    x.block.lo ≤ (pool.blockAfter earlier x).lo ∧
      (pool.blockAfter earlier x).lo ≤ x.block.lo + total Taken.slack (x :: earlier) := by
  have hv := h.valid x (by simp)
  have hbefore := (h.tail.cursor_between pool h16 hcursor).2.1
  have hafter := (h.cursor_between pool h16 hcursor).2.2
  rw [DownwardPool.toNat_replay_cons, total_cons] at hafter
  obtain ⟨htop, hsize, hdvd⟩ := h.latest h16
  have hinside := (Taken.block_inside hv hdvd hsize).2.1
  refine ⟨(Taken.block_le_blockAfter pool earlier hv hdvd hsize (by omega)).1, ?_⟩
  omega

/-- After exact calls the two cursors are the same. -/
theorem cursor_eq (h : Served E taken) (h16 : 16 ∣ E) (hcursor : pool.cursor.toNat = E)
    (hexact : ∀ x ∈ taken, x.Exact) :
    (pool.replay taken).cursor.toNat + total Taken.size taken = E := by
  induction taken with
  | nil => exact hcursor
  | cons x earlier ih =>
    obtain ⟨htop, hsize, hdvd⟩ := h.latest h16
    have hearlier := ih h.tail fun y hy => hexact y (by simp [hy])
    have hsame : (pool.replay earlier).cursor = x.current :=
      BitVec.eq_of_toNat_eq (by change _ = x.top; omega)
    obtain ⟨hblock, hlo⟩ :=
      (hexact x (by simp)).blockAfter_eq (h.valid x (by simp)) hdvd hsize hsame
    rw [DownwardPool.toNat_replay_cons, hblock, total_cons]
    omega

/-- And so are the blocks. -/
theorem block_eq (h : Served E (x :: earlier)) (h16 : 16 ∣ E) (hcursor : pool.cursor.toNat = E)
    (hexact : ∀ y ∈ x :: earlier, y.Exact) : pool.blockAfter earlier x = x.block := by
  obtain ⟨htop, hsize, hdvd⟩ := h.latest h16
  have hearlier := h.tail.cursor_eq h16 hcursor fun y hy => hexact y (by simp [hy])
  have hsame : (pool.replay earlier).cursor = x.current :=
    BitVec.eq_of_toNat_eq (by change _ = x.top; omega)
  exact ((hexact x (by simp)).blockAfter_eq (h.valid x (by simp)) hdvd hsize hsame).1

end Served

/-- **The non-blocking pool reserves more than the sequential one needs, and not much more.** In
every interleaving of valid requests whose reservations fit below the mapping end, a `DownwardPool`
on the same storage that serves the requests in the order of the `fetch_sub`s places each block at
or above that of the non-blocking pool, by at most what the calls so far may have reserved beyond
their bytes; so it is with the cursors, and with the used bytes as long as the cursor is not null.
If all sizes are multiples of 16 and no alignment is above it, the blocks and the cursors are the
same. -/
theorem nonblocking_beside_sequential {pool : NonblockingDownwardPool} {E : ℕ}
    (hne : pool.storage.mappingBegin ≠ 0)
    (hE : pool.storage.mappingBegin.toNat + pool.storage.mappingBytes.toNat = E)
    (hfit : E < 2 ^ 64) (h16 : 16 ∣ E) {ops : List NonblockingOp}
    (hops : ∀ op ∈ ops, NonblockingRun.CallsMeet Request.Valid op) {s : NonblockingRun}
    (hrun : Transition.run NonblockingRun.next (NonblockingRun.start pool) ops = some s)
    (htotal : s.reserved ≤ E) {plain : DownwardPool} (hstorage : plain.storage = pool.storage) :
    (∀ later x earlier, s.taken = later ++ x :: earlier →
        x.block.lo ≤ (plain.reset.blockAfter earlier x).lo ∧
        (plain.reset.blockAfter earlier x).lo ≤
          x.block.lo + total Taken.slack (x :: earlier)) ∧
      s.pool.cursor.toNat ≤ (plain.reset.replay s.taken).cursor.toNat ∧
      (plain.reset.replay s.taken).cursor.toNat ≤
        s.pool.cursor.toNat + total Taken.slack s.taken ∧
      (s.reserved < E →
        (plain.reset.replay s.taken).usedBytes.toNat ≤ s.pool.usedBytes.toNat ∧
        s.pool.usedBytes.toNat ≤
          (plain.reset.replay s.taken).usedBytes.toNat + total Taken.slack s.taken) ∧
      ((∀ x ∈ s.taken, x.Exact) →
        (plain.reset.replay s.taken).cursor = s.pool.cursor ∧
        ∀ later x earlier, s.taken = later ++ x :: earlier →
          plain.reset.blockAfter earlier x = x.block) := by
  have h := NonblockingRun.run_ok (NonblockingRun.start_ok
    ((toNat_downwardPoolMappingEnd pool.storage hne (hE ▸ hfit)).trans hE)) hops hrun
  have hserved : Served E s.taken := ⟨h.stacked, h.requests, htotal⟩
  have hcur : s.pool.cursor.toNat + total Taken.size s.taken = E := h.cursor_eq htotal
  have hcursor : plain.reset.cursor.toNat = E := by
    rw [← hE, ← toNat_downwardPoolMappingEnd pool.storage hne (hE ▸ hfit), ← hstorage]
    rfl
  obtain ⟨hstart, hlower, hupper⟩ := hserved.cursor_between _ h16 hcursor
  refine ⟨fun later x earlier htaken => ?_, by omega, by omega, fun hleft => ?_, fun hexact =>
    ⟨?_, fun later x earlier htaken => ?_⟩⟩
  · exact (htaken ▸ hserved).of_append.block_between h16 hcursor
  · change total Taken.size s.taken < E at hleft
    have hused : ∀ cursor : UIntPtr, 0 < cursor.toNat → cursor.toNat ≤ E →
        (downwardPoolUsedBytes cursor pool.storage).toNat = E - cursor.toNat := by
      intro cursor hpos hle
      have hzero : cursor ≠ 0 := fun heq => by
        rw [heq] at hpos
        exact absurd hpos (by decide)
      rw [toNat_downwardPoolUsedBytes pool.storage hne (hE ▸ hfit) (hE ▸ hle), if_neg hzero, hE]
    have hnonblocking := hused s.pool.cursor (by omega) (by omega)
    have hplain := hused (plain.reset.replay s.taken).cursor (by omega) hstart
    have hstorage' : (plain.reset.replay s.taken).storage = pool.storage :=
      (DownwardPool.replay_storage _ _).trans hstorage
    rw [NonblockingDownwardPool.usedBytes, h.storage_eq, hnonblocking, DownwardPool.usedBytes,
      hstorage', hplain]
    omega
  · have hsame := hserved.cursor_eq h16 hcursor hexact
    exact BitVec.eq_of_toNat_eq (by omega)
  · have hstretch := htaken ▸ hserved
    refine hstretch.of_append.block_eq h16 hcursor fun y hy => hexact y ?_
    rw [htaken]
    exact List.mem_append_right _ hy

/-- Two threads. The call of thread 1 pads for its alignment, and both round to 16 bytes. -/
theorem nonblocking_beside_sequential_twoThreads :
    ∃ s, Transition.run NonblockingRun.next (NonblockingRun.start ⟨⟨0x10000, 0x3000⟩, 0⟩)
        [.call 0 24 8, .call 1 1 64, .fetchSub 1, .fetchSub 0, .ret 0, .ret 1] = some s ∧
      s.pool.cursor = 0x12fa0 ∧
      ((DownwardPool.mk ⟨0x10000, 0x3000⟩ 0).reset.replay s.taken).cursor = 0x12fa8 ∧
      s.pool.cursor.toNat ≤
        ((DownwardPool.mk ⟨0x10000, 0x3000⟩ 0).reset.replay s.taken).cursor.toNat := by
  obtain ⟨s, hs⟩ : ∃ s, Transition.run NonblockingRun.next
      (NonblockingRun.start ⟨⟨0x10000, 0x3000⟩, 0⟩)
      [.call 0 24 8, .call 1 1 64, .fetchSub 1, .fetchSub 0, .ret 0, .ret 1] = some s := ⟨_, rfl⟩
  have hfacts : (Transition.run NonblockingRun.next
      (NonblockingRun.start ⟨⟨0x10000, 0x3000⟩, 0⟩)
      [.call 0 24 8, .call 1 1 64, .fetchSub 1, .fetchSub 0, .ret 0, .ret 1]).map
      (fun s => (s.pool.cursor, s.taken, s.reserved)) =
        some (0x12fa0, [⟨0, 24, 8, 0x12fc0⟩, ⟨1, 1, 64, 0x13000⟩], 96) := rfl
  rw [hs, Option.map_some, Option.some.injEq, Prod.mk.injEq, Prod.mk.injEq] at hfacts
  obtain ⟨hcursor, htaken, hreserved⟩ := hfacts
  refine ⟨s, hs, hcursor, by rw [htaken]; rfl, ?_⟩
  refine (nonblocking_beside_sequential (E := 0x13000) (by decide) rfl (by decide) (by decide) ?_
    hs (by rw [hreserved]; decide) rfl).2.1
  intro op hop
  simp only [List.mem_cons, List.not_mem_nil, or_false] at hop
  rcases hop with rfl | rfl | rfl | rfl | rfl | rfl
  · exact ⟨⟨3, rfl⟩, by decide⟩
  · exact ⟨⟨6, rfl⟩, by decide⟩
  all_goals trivial

end Doost.Pools
