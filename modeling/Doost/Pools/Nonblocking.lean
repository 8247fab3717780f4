import Doost.Foundations.DownwardStack
import Doost.Pools.Downward

/-!
# The non-blocking downward pool

Threads share one atomic cursor. `allocate` computes a reservation, takes it from the cursor with a
single `fetch_sub`, and places the block below the value it read, on its own. The steps of a thread
are modelled one by one (`NonblockingRun.next`), so that a run is an interleaving of any number of
calls; the history of the run keeps every executed `fetch_sub` and every returned call.

`blocks_disjoint` is the safety of the placement: as long as the reservations fit below the mapping
end, every block lies in the interval its own `fetch_sub` took, and these are disjoint.
-/

namespace Doost.Pools

open AlignedWord DownwardStack

structure NonblockingDownwardPool where
  storage : DownwardPoolStorage
  cursor : UIntPtr
  deriving DecidableEq, Repr

/-- `alignof(std::max_align_t)`. -/
def cursorAlignment : SizeT := 16

namespace NonblockingDownwardPool

def make (os : Os) (usableBytes maxAllocSize : SizeT) (process : Process) :
    Except PoolError NonblockingDownwardPool × Process :=
  match makeDownwardPoolStorage os usableBytes maxAllocSize process with
  | (.error e, process) => (.error e, process)
  | (.ok storage, process) => (.ok ⟨storage, downwardPoolMappingEnd storage⟩, process)

/-- The bytes `allocate` takes from the cursor. -/
def reservation (bytes alignment : SizeT) : SizeT :=
  let padding := if cursorAlignment < alignment then alignment - 1 else 0
  let reservationMask := cursorAlignment - 1
  (bytes + padding + reservationMask) &&& ~~~reservationMask

def reset (pool : NonblockingDownwardPool) : NonblockingDownwardPool :=
  { pool with cursor := downwardPoolMappingEnd pool.storage }

def release (pool : NonblockingDownwardPool) (process : Process) :
    NonblockingDownwardPool × Process :=
  let (storage, process) := releaseDownwardPoolStorage pool.storage process
  (⟨storage, 0⟩, process)

/-- A call of `allocate` with no other thread in it: the returned address and the pool after the
call. -/
def allocate (pool : NonblockingDownwardPool) (bytes alignment : SizeT) :
    UIntPtr × NonblockingDownwardPool :=
  let current := pool.cursor
  (alignDownwardPoolCursor current bytes alignment,
    { pool with cursor := current - reservation bytes alignment })

/-- The pool that is moved to, and the one that is moved from. -/
def moveFrom (pool other : NonblockingDownwardPool) :
    NonblockingDownwardPool × NonblockingDownwardPool :=
  ({ pool with storage := other.storage, cursor := other.cursor },
    { other with storage := .empty, cursor := 0 })

/-- The move constructor: the new pool, and the one that is moved from. -/
def moveConstruct (other : NonblockingDownwardPool) :
    NonblockingDownwardPool × NonblockingDownwardPool :=
  moveFrom ⟨.empty, 0⟩ other

/-- The move assignment between two objects. -/
def moveAssign (pool other : NonblockingDownwardPool) (process : Process) :
    (NonblockingDownwardPool × NonblockingDownwardPool) × Process :=
  let (pool, process) := pool.release process
  (pool.moveFrom other, process)

def usableBytes (os : Os) (pool : NonblockingDownwardPool) : SizeT :=
  downwardPoolUsableBytes os pool.storage

def usedBytes (pool : NonblockingDownwardPool) : SizeT :=
  downwardPoolUsedBytes pool.cursor pool.storage

theorem make_ok {os : Os} {usableBytes maxAllocSize : SizeT} {process process' : Process}
    {pool : NonblockingDownwardPool}
    (h : make os usableBytes maxAllocSize process = (.ok pool, process')) :
    makeDownwardPoolStorage os usableBytes maxAllocSize process = (.ok pool.storage, process') ∧
      pool.reset = pool := by
  unfold make at h
  split at h
  · simp at h
  · rename_i storage process'' hmake
    simp only [Prod.mk.injEq, Except.ok.injEq] at h
    obtain ⟨rfl, rfl⟩ := h
    exact ⟨hmake, rfl⟩

end NonblockingDownwardPool

/-! ## The reservation -/

open NonblockingDownwardPool (reservation)

/-- The padding that `reservation` adds above the cursor alignment. -/
def padding (alignment : ℕ) : ℕ := if 16 < alignment then alignment - 1 else 0

/-- A request whose alignment is a power of two and whose reservation does not wrap. -/
structure Request.Valid (bytes alignment : SizeT) : Prop where
  pow : alignment.toNat.isPowerOfTwo
  nowrap : bytes.toNat + padding alignment.toNat + 15 < 2 ^ 64

theorem toNat_reservation {bytes alignment : SizeT} (h : Request.Valid bytes alignment) :
    (reservation bytes alignment).toNat = ceilTo (bytes.toNat + padding alignment.toNat) 16 := by
  have hpos := Nat.pos_of_isPowerOfTwo h.pow
  have hpad : (if cursorAlignment < alignment then alignment - 1 else 0 : SizeT).toNat =
      padding alignment.toNat := by
    have hlt : cursorAlignment < alignment ↔ 16 < alignment.toNat := BitVec.lt_def
    simp only [padding, hlt]
    split
    · exact toNat_sub_one hpos
    · rfl
  have hsum : (bytes + if cursorAlignment < alignment then alignment - 1 else 0 : SizeT).toNat =
      bytes.toNat + padding alignment.toNat := by
    rw [BitVec.toNat_add, hpad, Nat.mod_eq_of_lt (by have := h.nowrap; omega)]
  have h16 : cursorAlignment.toNat.isPowerOfTwo := ⟨4, rfl⟩
  rw [← hsum]
  exact toNat_roundDown_add (a := cursorAlignment) (k := cursorAlignment - 1) h16 rfl
    (by rw [hsum]; exact h.nowrap)

theorem dvd_reservation (bytes alignment : SizeT) : 16 ∣ (reservation bytes alignment).toNat :=
  dvd_roundDown (a := cursorAlignment) ⟨4, rfl⟩ _

theorem le_reservation {bytes alignment : SizeT} (h : Request.Valid bytes alignment) :
    bytes.toNat + padding alignment.toNat ≤ (reservation bytes alignment).toNat := by
  rw [toNat_reservation h]
  exact le_ceilTo (by decide) _

/-! ## Interleaved calls -/

/-- An executed `fetch_sub`: the request and the value read from the cursor. -/
structure Taken where
  thread : ℕ
  bytes : SizeT
  alignment : SizeT
  current : UIntPtr
  deriving DecidableEq, Repr

namespace Taken

/-- The bytes taken from the cursor. -/
def size (x : Taken) : ℕ := (reservation x.bytes x.alignment).toNat

/-- The end of the interval taken. -/
def top (x : Taken) : ℕ := x.current.toNat

/-- The block `allocate` returns for it. -/
def block (x : Taken) : Block :=
  ⟨alignDownwardPoolCursor x.current x.bytes x.alignment, x.bytes, x.alignment⟩

end Taken

/-- Where a thread is in `allocate`. -/
inductive Pc
  /-- Outside a call. -/
  | idle
  /-- Called; next the `fetch_sub`. -/
  | called (bytes alignment : SizeT)
  /-- Holds the value read; next the placement and the return. -/
  | subtracted (x : Taken)
  deriving DecidableEq, Repr

/-- A pool shared by threads, with the executed `fetch_sub`s and the returned calls, the latest
first in both. -/
structure NonblockingRun where
  pool : NonblockingDownwardPool
  pc : ℕ → Pc
  taken : List Taken
  returned : List Taken

inductive NonblockingOp
  | call (thread : ℕ) (bytes alignment : SizeT)
  | fetchSub (thread : ℕ)
  | ret (thread : ℕ)
  deriving DecidableEq, Repr

namespace NonblockingRun

/-- No call has started since `reset` (or the construction, which leaves the same cursor). -/
def start (pool : NonblockingDownwardPool) : NonblockingRun := ⟨pool.reset, fun _ => .idle, [], []⟩

def next (s : NonblockingRun) : NonblockingOp → Option NonblockingRun
  | .call t bytes alignment =>
    match s.pc t with
    | .idle => some { s with pc := Function.update s.pc t (.called bytes alignment) }
    | _ => none
  | .fetchSub t =>
    match s.pc t with
    | .called bytes alignment =>
      let current := s.pool.cursor
      let x : Taken := ⟨t, bytes, alignment, current⟩
      some
        { s with
          pool := { s.pool with cursor := current - reservation bytes alignment }
          pc := Function.update s.pc t (.subtracted x)
          taken := x :: s.taken }
    | _ => none
  | .ret t =>
    match s.pc t with
    | .subtracted x =>
      some { s with pc := Function.update s.pc t .idle, returned := x :: s.returned }
    | _ => none

/-- All reservations taken from the cursor so far, as an exact sum. -/
def reserved (s : NonblockingRun) : ℕ := total Taken.size s.taken

/-- What holds after every step, with the cursor starting at `E`. `flight` are the calls between
their `fetch_sub` and their return. -/
structure Ok (storage : DownwardPoolStorage) (E : ℕ) (P : SizeT → SizeT → Prop)
    (s : NonblockingRun) : Prop where
  storage_eq : s.pool.storage = storage
  cursor_eq : s.reserved ≤ E → s.pool.cursor.toNat + s.reserved = E
  called : ∀ t bytes alignment, s.pc t = .called bytes alignment → P bytes alignment
  requests : ∀ x ∈ s.taken, P x.bytes x.alignment
  stacked : Stacked Taken.size Taken.top E s.taken
  flight : ∃ fl : List (ℕ × Taken), (fl.map Prod.fst).Nodup ∧
    (∀ t x, (t, x) ∈ fl ↔ s.pc t = .subtracted x) ∧
    s.taken.Perm (fl.map Prod.snd ++ s.returned)

variable {storage : DownwardPoolStorage} {E : ℕ} {P : SizeT → SizeT → Prop}

theorem start_ok {pool : NonblockingDownwardPool}
    (hE : (downwardPoolMappingEnd pool.storage).toNat = E) : (start pool).Ok pool.storage E P where
  storage_eq := rfl
  cursor_eq _ := hE
  called := by simp [start]
  requests := by simp [start]
  stacked := trivial
  flight := ⟨[], by simp [start]⟩

/-- The calls made along a run satisfy `P`. -/
def CallsMeet (P : SizeT → SizeT → Prop) : NonblockingOp → Prop
  | .call _ bytes alignment => P bytes alignment
  | .fetchSub _ => True
  | .ret _ => True

theorem call_inv {s s' : NonblockingRun} {t : ℕ} {bytes alignment : SizeT}
    (h : next s (.call t bytes alignment) = some s') :
    s.pc t = .idle ∧ s' = { s with pc := Function.update s.pc t (.called bytes alignment) } := by
  simp only [next] at h
  split at h
  · exact ⟨‹_›, (Option.some.inj h).symm⟩
  · simp at h

theorem fetchSub_inv {s s' : NonblockingRun} {t : ℕ} (h : next s (.fetchSub t) = some s') :
    ∃ bytes alignment, s.pc t = .called bytes alignment ∧
      s' =
        { s with
          pool := { s.pool with cursor := s.pool.cursor - reservation bytes alignment }
          pc := Function.update s.pc t (.subtracted ⟨t, bytes, alignment, s.pool.cursor⟩)
          taken := ⟨t, bytes, alignment, s.pool.cursor⟩ :: s.taken } := by
  simp only [next] at h
  split at h
  · exact ⟨_, _, ‹_›, (Option.some.inj h).symm⟩
  · simp at h

theorem ret_inv {s s' : NonblockingRun} {t : ℕ} (h : next s (.ret t) = some s') :
    ∃ x, s.pc t = .subtracted x ∧
      s' = { s with pc := Function.update s.pc t .idle, returned := x :: s.returned } := by
  simp only [next] at h
  split at h
  · exact ⟨_, ‹_›, (Option.some.inj h).symm⟩
  · simp at h

theorem call_ok {s : NonblockingRun} (h : s.Ok storage E P) {t : ℕ} {bytes alignment : SizeT}
    (hidle : s.pc t = .idle) (hP : P bytes alignment) :
    Ok storage E P { s with pc := Function.update s.pc t (.called bytes alignment) } where
  storage_eq := h.storage_eq
  cursor_eq := h.cursor_eq
  called := by
    intro u b a hu
    rcases eq_or_ne u t with rfl | hne
    · simp only [Function.update_self, Pc.called.injEq] at hu
      obtain ⟨rfl, rfl⟩ := hu
      exact hP
    · exact h.called u b a (by simpa [hne] using hu)
  requests := h.requests
  stacked := h.stacked
  flight := by
    obtain ⟨fl, hnodup, hmem, hperm⟩ := h.flight
    refine ⟨fl, hnodup, fun u x => ?_, hperm⟩
    rw [hmem]
    rcases eq_or_ne u t with rfl | hne
    · simp [hidle]
    · simp [hne]

theorem fetchSub_ok {s : NonblockingRun} (h : s.Ok storage E P) {t : ℕ} {bytes alignment : SizeT}
    (hcalled : s.pc t = .called bytes alignment) :
    Ok storage E P
      { s with
        pool := { s.pool with cursor := s.pool.cursor - reservation bytes alignment }
        pc := Function.update s.pc t (.subtracted ⟨t, bytes, alignment, s.pool.cursor⟩)
        taken := ⟨t, bytes, alignment, s.pool.cursor⟩ :: s.taken } where
  storage_eq := h.storage_eq
  cursor_eq := by
    intro hle
    simp only [reserved, total_cons, Taken.size] at hle ⊢
    have hcur := h.cursor_eq (by unfold reserved; omega)
    unfold reserved at hcur
    rw [BitVec.toNat_sub_of_le (by rw [BitVec.le_def]; omega)]
    omega
  called := by
    intro u b a hu
    rcases eq_or_ne u t with rfl | hne
    · simp at hu
    · exact h.called u b a (by simpa [hne] using hu)
  requests := List.forall_mem_cons.mpr ⟨h.called t _ _ hcalled, h.requests⟩
  stacked := ⟨h.cursor_eq, h.stacked⟩
  flight := by
    obtain ⟨fl, hnodup, hmem, hperm⟩ := h.flight
    have hfresh : ∀ x, (t, x) ∉ fl := fun x hx => by simp [hmem, hcalled] at hx
    refine ⟨(t, ⟨t, bytes, alignment, s.pool.cursor⟩) :: fl, ?_, fun u x => ?_, hperm.cons _⟩
    · rw [List.map_cons, List.nodup_cons]
      exact ⟨by simpa using hfresh, hnodup⟩
    · rcases eq_or_ne u t with rfl | hne
      · simp [hfresh, eq_comm]
      · simp [hne, hmem]

theorem ret_ok {s : NonblockingRun} (h : s.Ok storage E P) {t : ℕ} {x : Taken}
    (hsub : s.pc t = .subtracted x) :
    Ok storage E P { s with pc := Function.update s.pc t .idle, returned := x :: s.returned } where
  storage_eq := h.storage_eq
  cursor_eq := h.cursor_eq
  called := by
    intro u b a hu
    rcases eq_or_ne u t with rfl | hne
    · simp at hu
    · exact h.called u b a (by simpa [hne] using hu)
  requests := h.requests
  stacked := h.stacked
  flight := by
    obtain ⟨fl, hnodup, hmem, hperm⟩ := h.flight
    obtain ⟨l₁, l₂, rfl⟩ := List.append_of_mem ((hmem t x).mpr hsub)
    rw [List.map_append, List.map_cons, List.perm_middle.nodup_iff, List.nodup_cons,
      List.mem_append, not_or, List.mem_map, List.mem_map] at hnodup
    obtain ⟨⟨hl₁, hl₂⟩, hnodup⟩ := hnodup
    refine ⟨l₁ ++ l₂, by simpa using hnodup, fun u y => ?_, ?_⟩
    · rcases eq_or_ne u t with rfl | hne
      · refine ⟨fun hy => ?_, fun hy => by simp at hy⟩
        rcases List.mem_append.mp hy with hy | hy
        · exact absurd ⟨_, hy, rfl⟩ hl₁
        · exact absurd ⟨_, hy, rfl⟩ hl₂
      · have hpc : Function.update s.pc t Pc.idle u = s.pc u := Function.update_of_ne hne _ _
        show _ ↔ Function.update s.pc t Pc.idle u = _
        rw [hpc, ← hmem]
        simp [hne]
    · refine hperm.trans ?_
      simp only [List.map_append, List.map_cons, List.append_assoc, List.cons_append]
      have hmiddle : (l₁.map Prod.snd ++ l₂.map Prod.snd ++ x :: s.returned).Perm
          (x :: (l₁.map Prod.snd ++ l₂.map Prod.snd ++ s.returned)) := List.perm_middle
      exact (List.perm_middle.trans (List.Perm.cons _ (List.Perm.refl _))).trans
        (by simpa using hmiddle.symm)

theorem Ok.next_ok {s s' : NonblockingRun} (h : s.Ok storage E P) (op : NonblockingOp)
    (hop : CallsMeet P op) (hnext : next s op = some s') : s'.Ok storage E P := by
  cases op with
  | call t bytes alignment =>
    obtain ⟨hidle, rfl⟩ := call_inv hnext
    exact call_ok h hidle hop
  | fetchSub t =>
    obtain ⟨bytes, alignment, hcalled, rfl⟩ := fetchSub_inv hnext
    exact fetchSub_ok h hcalled
  | ret t =>
    obtain ⟨x, hsub, rfl⟩ := ret_inv hnext
    exact ret_ok h hsub

theorem run_ok {s s' : NonblockingRun} {ops : List NonblockingOp} (h : s.Ok storage E P)
    (hops : ∀ op ∈ ops, CallsMeet P op) (hrun : Transition.run next s ops = some s') :
    s'.Ok storage E P :=
  Transition.run_invariant (fun _ op _ hs hop hn => hs.next_ok op hop hn) h hops hrun

theorem Ok.returned_subset {s : NonblockingRun} (h : s.Ok storage E P) :
    ∀ x ∈ s.returned, x ∈ s.taken := by
  obtain ⟨fl, -, -, hperm⟩ := h.flight
  exact fun x hx => hperm.mem_iff.mpr (List.mem_append_right _ hx)

/-- Once no call is in flight, the returned calls are the executed `fetch_sub`s. -/
theorem Ok.perm_of_idle {s : NonblockingRun} (h : s.Ok storage E P)
    (hidle : ∀ t, s.pc t = .idle) : s.taken.Perm s.returned := by
  obtain ⟨fl, -, hmem, hperm⟩ := h.flight
  have hnil : fl = [] := by
    rw [List.eq_nil_iff_forall_not_mem]
    rintro ⟨t, x⟩ hx
    rw [hmem, hidle] at hx
    cases hx
  simpa [hnil] using hperm

/-- The intervals of the returned calls are disjoint. -/
theorem Ok.returned_pairwise {s : NonblockingRun} (h : s.Ok storage E P)
    (ht : s.reserved ≤ E) :
    s.returned.Pairwise fun x y => x.top + y.size ≤ y.top ∨ y.top + x.size ≤ x.top := by
  obtain ⟨fl, -, -, hperm⟩ := h.flight
  have hall : s.taken.Pairwise fun x y => x.top + y.size ≤ y.top ∨ y.top + x.size ≤ x.top :=
    (h.stacked.pairwise ht).imp Or.inl
  rw [hperm.pairwise_iff (fun h => Or.symm h), List.pairwise_append] at hall
  exact hall.2.1

end NonblockingRun

/-! ## Placement -/

/-- The block lies in the interval its own `fetch_sub` took. -/
theorem Taken.block_inside {x : Taken} (hv : Request.Valid x.bytes x.alignment)
    (h16 : 16 ∣ x.top) (hle : x.size ≤ x.top) :
    x.block.Aligned ∧ x.top - x.size ≤ x.block.lo ∧ x.block.hi ≤ x.top := by
  have hsize : x.bytes.toNat + padding x.alignment.toNat ≤ x.size := le_reservation hv
  unfold Taken.top Taken.size at *
  obtain ⟨hdvd, htop, hlt, hbelow⟩ :=
    alignDownwardPoolCursor_spec x.current x.bytes hv.pow (by omega)
  refine ⟨hdvd, ?_, htop⟩
  by_cases hal : 16 < x.alignment.toNat
  · -- the padding pays for rounding down to the alignment
    simp only [padding, hal, if_true] at hsize
    have : x.block.lo = (alignDownwardPoolCursor x.current x.bytes x.alignment).toNat := rfl
    omega
  · -- the end of the interval is itself a multiple of the alignment
    have h16' : x.alignment.toNat ∣ 16 :=
      dvd_of_isPowerOfTwo_of_le hv.pow ⟨4, rfl⟩ (by omega)
    refine (hbelow _ (h16'.trans (Nat.dvd_sub h16 (dvd_reservation _ _)))).mpr ?_
    omega

/-- **The non-blocking pool never hands out overlapping memory.** In every interleaving of calls
since the construction or a reset, with valid requests and reservations that in total do not exceed
the mapping end: every returned block is aligned and lies in the interval its own `fetch_sub` took,
blocks of different calls are disjoint and the cursor stays a multiple of 16. Once no call is in
flight, `used_bytes` is the sum of all reservations, except that a cursor lowered to exactly zero
counts as nothing used. -/
theorem blocks_disjoint {pool : NonblockingDownwardPool} {E : ℕ}
    (hne : pool.storage.mappingBegin ≠ 0)
    (hE : pool.storage.mappingBegin.toNat + pool.storage.mappingBytes.toNat = E)
    (hfit : E < 2 ^ 64) (h16 : 16 ∣ E) {ops : List NonblockingOp}
    (hops : ∀ op ∈ ops, NonblockingRun.CallsMeet Request.Valid op) {s : NonblockingRun}
    (hrun : Transition.run NonblockingRun.next (NonblockingRun.start pool) ops = some s)
    (htotal : s.reserved ≤ E) :
    (∀ x ∈ s.returned, x.size ≤ x.top ∧ x.block.Aligned ∧ x.top - x.size ≤ x.block.lo ∧
        x.block.hi ≤ x.top) ∧
      (s.returned.Pairwise fun x y => x.block.Below y.block ∨ y.block.Below x.block) ∧
      16 ∣ s.pool.cursor.toNat ∧
      ((∀ t, s.pc t = .idle) → s.pool.usedBytes.toNat =
        if total Taken.size s.returned = E then 0 else total Taken.size s.returned) := by
  subst hE
  have h := NonblockingRun.run_ok (NonblockingRun.start_ok
    (toNat_downwardPoolMappingEnd pool.storage hne hfit)) hops hrun
  have hcur := h.cursor_eq htotal
  have hdvd : ∀ x : Taken, 16 ∣ x.size := fun x => dvd_reservation x.bytes x.alignment
  have hinside : ∀ x ∈ s.returned, x.size ≤ x.top ∧ x.block.Aligned ∧
      x.top - x.size ≤ x.block.lo ∧ x.block.hi ≤ x.top := by
    intro x hx
    have hmem := h.returned_subset x hx
    have hle : x.size ≤ x.top := by
      have := (h.stacked.bounds htotal x hmem).1
      omega
    exact ⟨hle, Taken.block_inside (h.requests x hmem)
      (h.stacked.dvd_top htotal h16 hdvd x hmem) hle⟩
  refine ⟨hinside, ?_, ?_, fun hidle => ?_⟩
  · refine (List.Pairwise.imp_of_mem ?_ (h.returned_pairwise htotal))
    intro x y hx hy hxy
    obtain ⟨hx₀, -, hx₁, hx₂⟩ := hinside x hx
    obtain ⟨hy₀, -, hy₁, hy₂⟩ := hinside y hy
    unfold Block.Below
    omega
  · exact (Nat.dvd_add_left (dvd_total hdvd s.taken)).mp (hcur ▸ h16)
  · have hsum : total Taken.size s.returned = s.reserved :=
      total_perm Taken.size (h.perm_of_idle hidle).symm
    have hzero : s.pool.cursor = 0 ↔ s.pool.cursor.toNat = 0 := by
      rw [← BitVec.toNat_inj]
      rfl
    rw [NonblockingDownwardPool.usedBytes, h.storage_eq,
      toNat_downwardPoolUsedBytes pool.storage hne hfit (by omega), hsum]
    simp only [hzero]
    split <;> split <;> omega

/-- Two threads whose calls interleave: the second subtracts before the first places its block. -/
theorem blocks_disjoint_two_threads :
    ∃ s, Transition.run NonblockingRun.next (NonblockingRun.start ⟨⟨0x10000, 0x3000⟩, 0⟩)
        [.call 0 24 8, .call 1 1 64, .fetchSub 1, .fetchSub 0, .ret 0, .ret 1] = some s ∧
      s.returned.length = 2 ∧
      s.returned.Pairwise fun x y => x.block.Below y.block ∨ y.block.Below x.block := by
  obtain ⟨s, hs⟩ : ∃ s, Transition.run NonblockingRun.next
      (NonblockingRun.start ⟨⟨0x10000, 0x3000⟩, 0⟩)
      [.call 0 24 8, .call 1 1 64, .fetchSub 1, .fetchSub 0, .ret 0, .ret 1] = some s := ⟨_, rfl⟩
  have hfacts : (Transition.run NonblockingRun.next
      (NonblockingRun.start ⟨⟨0x10000, 0x3000⟩, 0⟩)
      [.call 0 24 8, .call 1 1 64, .fetchSub 1, .fetchSub 0, .ret 0, .ret 1]).map
      (fun s => (s.returned.length, s.reserved)) = some (2, 96) := rfl
  rw [hs, Option.map_some, Option.some.injEq, Prod.mk.injEq] at hfacts
  refine ⟨s, hs, hfacts.1, (blocks_disjoint (E := 0x13000) (by decide) rfl (by decide)
    (by decide) ?_ hs (by rw [hfacts.2]; decide)).2.1⟩
  intro op hop
  simp only [List.mem_cons, List.not_mem_nil, or_false] at hop
  rcases hop with rfl | rfl | rfl | rfl | rfl | rfl
  · exact ⟨⟨3, rfl⟩, by decide⟩
  · exact ⟨⟨6, rfl⟩, by decide⟩
  all_goals trivial

/-- Reservations that add up to exactly the mapping end leave a null cursor, which `used_bytes`
reports as nothing used. -/
theorem usedBytes_ne_total_of_null_cursor :
    ¬ ∀ (pool : NonblockingDownwardPool) (E : ℕ), pool.storage.mappingBegin ≠ 0 →
      pool.storage.mappingBegin.toNat + pool.storage.mappingBytes.toNat = E → E < 2 ^ 64 →
      16 ∣ E → ∀ ops : List NonblockingOp,
      (∀ op ∈ ops, NonblockingRun.CallsMeet Request.Valid op) → ∀ s,
      Transition.run NonblockingRun.next (NonblockingRun.start pool) ops = some s →
      s.reserved ≤ E → (∀ t, s.pc t = .idle) →
      s.pool.usedBytes.toNat = total Taken.size s.returned := by
  intro h
  obtain ⟨s, hs⟩ : ∃ s, Transition.run NonblockingRun.next
      (NonblockingRun.start ⟨⟨0x1000, 0x2000⟩, 0⟩)
      [.call 0 0x3000 1, .fetchSub 0, .ret 0] = some s := ⟨_, rfl⟩
  have hfacts : (Transition.run NonblockingRun.next
      (NonblockingRun.start ⟨⟨0x1000, 0x2000⟩, 0⟩)
      [.call 0 0x3000 1, .fetchSub 0, .ret 0]).map
      (fun s => (s.pool.usedBytes.toNat, total Taken.size s.returned, s.reserved)) =
        some (0, 0x3000, 0x3000) := rfl
  have hidle : ∀ t, (Transition.run NonblockingRun.next
      (NonblockingRun.start ⟨⟨0x1000, 0x2000⟩, 0⟩)
      [.call 0 0x3000 1, .fetchSub 0, .ret 0]).map (fun s => s.pc t) = some .idle := by
    rintro (_ | t) <;> rfl
  rw [hs, Option.map_some, Option.some.injEq, Prod.mk.injEq, Prod.mk.injEq] at hfacts
  simp only [hs, Option.map_some, Option.some.injEq] at hidle
  have hused := h ⟨⟨0x1000, 0x2000⟩, 0⟩ 0x3000 (by decide) rfl (by decide) (by decide) _ ?_ s hs
    hfacts.2.2.le hidle
  · omega
  · intro op hop
    simp only [List.mem_cons, List.not_mem_nil, or_false] at hop
    rcases hop with rfl | rfl | rfl
    · exact ⟨⟨0, rfl⟩, by decide⟩
    all_goals trivial

end Doost.Pools
