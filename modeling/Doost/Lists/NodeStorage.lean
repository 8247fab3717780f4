import Doost.Pools.NonblockingGuard

/-!
# Storage for list nodes

`List::required_storage` sizes a pool from the bare node size; the pool allocators turn the
request for one node into a byte count and an alignment. A `NonblockingDownwardPool` takes more
than the node from its cursor, so a pool sized this way holds all the nodes only under the
condition of `nonblocking_holds_nodes_iff`.
-/

namespace Doost.Lists

open Pools AlignedWord DownwardStack

/-- `node_size` and `node_alignment` of a list: the size is a multiple of the alignment, and the
first member is a pointer. -/
structure NodeLayout where
  nodeSize : SizeT
  nodeAlignment : SizeT
  pow : nodeAlignment.toNat.isPowerOfTwo
  pointer_le : 8 ≤ nodeAlignment.toNat
  size_pos : 0 < nodeSize.toNat
  dvd_size : nodeAlignment.toNat ∣ nodeSize.toNat

/-- `List::required_storage`. -/
def requiredStorage (layout : NodeLayout) (nodeCount : SizeT) : Except PoolError SizeT :=
  if BitVec.allOnes 64 / layout.nodeSize < nodeCount then
    .error (.lengthError "List node storage size overflows size_t")
  else .ok (nodeCount * layout.nodeSize)

/-- The byte count and alignment that the `allocate(n)` of either pool allocator, rebound to the
node type, passes to its pool. -/
def allocatorRequest (layout : NodeLayout) (n : SizeT) : SizeT × SizeT :=
  (n * layout.nodeSize, layout.nodeAlignment)

@[simp] theorem allocatorRequest_one (layout : NodeLayout) :
    allocatorRequest layout 1#64 = (layout.nodeSize, layout.nodeAlignment) := by
  simp [allocatorRequest]

theorem requiredStorage_ok {layout : NodeLayout} {n bytes : SizeT}
    (h : requiredStorage layout n = .ok bytes) :
    bytes.toNat = n.toNat * layout.nodeSize.toNat := by
  unfold requiredStorage at h
  split at h
  · simp at h
  · rename_i hle
    obtain rfl := Except.ok.inj h
    rw [BitVec.not_lt, BitVec.le_def, BitVec.toNat_udiv, BitVec.toNat_allOnes] at hle
    have hmul := (Nat.le_div_iff_mul_le layout.size_pos).mp hle
    rw [BitVec.toNat_mul, Nat.mod_eq_of_lt (by omega)]

/-! ## What a node takes from the cursor -/

namespace NodeLayout

variable (layout : NodeLayout)

/-- The bytes one node takes from a non-blocking pool. -/
def reservation : SizeT :=
  NonblockingDownwardPool.reservation layout.nodeSize layout.nodeAlignment

/-- Rounding to 16 bytes and the alignment padding cost at most one alignment unit. -/
theorem reservation_le
    (hv : Request.Valid layout.nodeSize layout.nodeAlignment) :
    layout.reservation.toNat ≤ layout.nodeSize.toNat + layout.nodeAlignment.toNat := by
  rw [reservation, toNat_reservation hv]
  unfold padding
  split
  · have h16 : 16 ∣ layout.nodeAlignment.toNat :=
      dvd_of_isPowerOfTwo_of_le ⟨4, rfl⟩ layout.pow (by omega)
    exact ceilTo_le (Nat.dvd_add (h16.trans layout.dvd_size) h16) (by omega)
  · rename_i hle
    have h8 : 8 ∣ layout.nodeSize.toNat :=
      (dvd_of_isPowerOfTwo_of_le ⟨3, rfl⟩ layout.pow layout.pointer_le).trans layout.dvd_size
    have hlt := ceilTo_lt_add (a := 16) (by decide) (layout.nodeSize.toNat + 0)
    have hdvd := dvd_ceilTo (layout.nodeSize.toNat + 0) 16
    have := layout.pointer_le
    omega

end NodeLayout

/-- A node cut off where `k` bytes are already taken lies in the accessible region exactly when it
and those bytes fit there. -/
theorem holds_iff {m : Mapping} {page maxAlloc : ℕ} (hm : m.Guards page maxAlloc) {x : Taken}
    (hpow : x.alignment.toNat.isPowerOfTwo) (hpage : x.alignment.toNat ≤ page) {k : ℕ}
    (htop : x.top + k = m.hi) (hfit : x.bytes.toNat ≤ x.top) :
    m.Holds x.block ↔ k + x.bytes.toNat ≤ m.hi - m.guardEnd := by
  obtain ⟨-, hle, -, hbelow⟩ := alignDownwardPoolCursor_spec x.current x.bytes hpow hfit
  have hge := hbelow m.guardEnd (hm.dvd_guardEnd hpow hpage)
  have hend := hm.guardEnd_le_hi
  have hhi : x.block.hi = x.block.lo + x.bytes.toNat := rfl
  change (_ ≤ x.block.lo ↔ _ ≤ x.top) at hge
  change x.block.lo + _ ≤ x.top at hle
  simp only [Mapping.Holds, hge, hhi]
  omega

section Capacity

variable {m : Mapping} {page : ℕ} {layout : NodeLayout}

/-- Every executed `fetch_sub` is for one node. -/
def NodeTaken (layout : NodeLayout) (x : Taken) : Prop :=
  x.bytes = layout.nodeSize ∧ x.alignment = layout.nodeAlignment

theorem NodeTaken.size_eq {x : Taken} (h : NodeTaken layout x) :
    x.size = layout.reservation.toNat := by
  rw [Taken.size, h.1, h.2, NodeLayout.reservation]

/-- If all nodes lie in the accessible region, so do the reservations before the last one together
with its bytes. -/
theorem room_of_forall_holds (hm : m.Guards page layout.nodeSize.toNat)
    (hpage : layout.nodeAlignment.toNat ≤ page)
    (hv : Request.Valid layout.nodeSize layout.nodeAlignment) {x : Taken} {l : List Taken}
    (hnodes : ∀ y ∈ x :: l, NodeTaken layout y)
    (hstack : Stacked Taken.size Taken.top m.hi (x :: l))
    (hholds : ∀ y ∈ x :: l, m.Holds y.block) :
    l.length * layout.reservation.toNat + layout.nodeSize.toNat ≤ m.hi - m.guardEnd := by
  induction l generalizing x with
  | nil =>
    have hx := hnodes x (by simp)
    have htop : x.top + 0 = m.hi := hstack.1 (Nat.zero_le _)
    have hfit : x.bytes.toNat ≤ x.top := by
      rw [hx.1]
      have := hm.maxAlloc_le
      have := hm.guardEnd_le_hi
      unfold Mapping.guardEnd at this
      omega
    have := (holds_iff hm (hx.2 ▸ layout.pow) (hx.2 ▸ hpage) htop hfit).mp (hholds x (by simp))
    rw [hx.1] at this
    simpa using this
  | cons y l ih =>
    have hprev := ih (fun z hz => hnodes z (by simp [hz])) hstack.2
      fun z hz => hholds z (by simp [hz])
    have hx := hnodes x (by simp)
    have htotal : total Taken.size (y :: l) = (y :: l).length * layout.reservation.toNat :=
      total_eq_of_forall Taken.size fun z hz => (hnodes z (by simp [hz])).size_eq
    rw [List.length_cons, Nat.add_mul, Nat.one_mul] at htotal
    -- the previous node fits, so the cursor has not wrapped and this one fits above address zero
    have hbegin : layout.nodeAlignment.toNat ≤ m.lo :=
      hpage.trans (Nat.le_of_dvd hm.lo_pos hm.begin_dvd)
    have hres := layout.reservation_le hv
    have hguard : m.guardEnd = m.lo + m.guardBytes.toNat := rfl
    have hmax := hm.maxAlloc_le
    have hend := hm.guardEnd_le_hi
    have htop := hstack.1 (by omega)
    have hfit : x.bytes.toNat ≤ x.top := by
      rw [hx.1]
      omega
    have := (holds_iff hm (hx.2 ▸ layout.pow) (hx.2 ▸ hpage) htop hfit).mp (hholds x (by simp))
    rw [hx.1] at this
    rw [List.length_cons, Nat.add_mul, Nat.one_mul]
    omega

/-- If the reservations before the last node and its bytes fit the accessible region, every node
lies there. -/
theorem forall_holds_of_room (hm : m.Guards page layout.nodeSize.toNat)
    (hpage : layout.nodeAlignment.toNat ≤ page) {x : Taken} {l : List Taken}
    (hnodes : ∀ y ∈ x :: l, NodeTaken layout y)
    (hstack : Stacked Taken.size Taken.top m.hi (x :: l))
    (hroom : l.length * layout.reservation.toNat + layout.nodeSize.toNat ≤ m.hi - m.guardEnd) :
    ∀ y ∈ x :: l, m.Holds y.block := by
  have hx := hnodes x (by simp)
  have htotal : total Taken.size l = l.length * layout.reservation.toNat :=
    total_eq_of_forall Taken.size fun z hz => (hnodes z (by simp [hz])).size_eq
  have htop := hstack.1 (by omega)
  have hhold : m.Holds x.block := by
    refine (holds_iff hm (hx.2 ▸ layout.pow) (hx.2 ▸ hpage) htop ?_).mpr ?_ <;> rw [hx.1] <;> omega
  refine List.forall_mem_cons.mpr ⟨hhold, ?_⟩
  cases l with
  | nil => simp
  | cons y l =>
    rw [List.length_cons, Nat.add_mul] at hroom
    exact forall_holds_of_room hm hpage (fun z hz => hnodes z (by simp [hz])) hstack.2 (by omega)

end Capacity

/-- A pool that could be built for a positive number of nodes has a guard that covers a node. -/
theorem nodeSize_nowrap {os : Os} (hos : os.Lawful) {layout : NodeLayout} {n bytes : SizeT}
    (hn : n.toNat ≠ 0) (hreq : requiredStorage layout n = .ok bytes) {process process' : Process}
    {storage : DownwardPoolStorage}
    (hmake : makeDownwardPoolStorage os bytes layout.nodeSize process = (.ok storage, process')) :
    layout.nodeSize.toNat + (os.page - 1) < 2 ^ 64 := by
  by_contra hwrap
  have hpow := hos.pageSize_pow
  have hlt := (BitVec.ofInt 64 os.pageSize).isLt
  have hpagelt : os.page < 2 ^ 64 := hlt
  have hhalf : os.page ≤ 2 ^ 63 := by
    obtain ⟨k, hk⟩ := hpow
    change os.page = 2 ^ k at hk
    rw [hk] at hpagelt ⊢
    exact Nat.pow_le_pow_right (by decide)
      (Nat.lt_succ_iff.mp ((Nat.pow_lt_pow_iff_right (by decide)).mp hpagelt))
  have hbytes := requiredStorage_ok hreq
  have hbyteslt := bytes.isLt
  -- two nodes of this size do not fit a word, so the request is for one
  have hone : n.toNat = 1 := by
    by_contra hne
    have : 2 * layout.nodeSize.toNat ≤ n.toNat * layout.nodeSize.toNat :=
      Nat.mul_le_mul_right _ (by omega)
    omega
  have hsame : bytes = layout.nodeSize := by
    apply BitVec.eq_of_toNat_eq
    rw [hbytes, hone, Nat.one_mul]
  have hzero : roundUp layout.nodeSize (BitVec.ofInt 64 os.pageSize) = 0 := by
    have hmask := toNat_sub_one hos.page_pos
    have hsum : (layout.nodeSize + (BitVec.ofInt 64 os.pageSize - 1)).toNat <
        (BitVec.ofInt 64 os.pageSize).toNat := by
      have := layout.nodeSize.isLt
      rw [BitVec.toNat_add, hmask]
      change (_ + (os.page - 1)) % _ < os.page
      omega
    apply BitVec.eq_of_toNat_eq
    rw [roundUp_eq, toNat_roundDown hpow, Nat.mod_eq_of_lt hsum, Nat.sub_self]
    rfl
  obtain ⟨u, g, hu, hg, -, -, hmap, -⟩ := makeDownwardPoolStorage_ok hos hmake
  rw [hu, hg, hsame, hzero, show (0 + 0 : SizeT) = 0 from rfl, hos.mmap_zero] at hmap
  cases hmap

/-- In a mapping whose guard covers a node, the reservation of a node does not wrap. -/
theorem NodeLayout.valid (layout : NodeLayout) {m : Mapping} {page : ℕ}
    (hm : m.Guards page layout.nodeSize.toNat) (hpage : layout.nodeAlignment.toNat ≤ page) :
    Request.Valid layout.nodeSize layout.nodeAlignment where
  pow := layout.pow
  nowrap := by
    have hbegin : page ≤ m.lo := Nat.le_of_dvd hm.lo_pos hm.begin_dvd
    have hguard : m.guardEnd = m.lo + m.guardBytes.toNat := rfl
    have := hm.maxAlloc_le
    have := hm.guardEnd_le_hi
    have := hm.hi_add_page_le
    have := layout.pointer_le
    unfold padding
    split <;> omega

/-- The iff for the mapping of a pool that was built for nodes, with the accessible bytes read off
the mapping. -/
theorem forall_holds_iff {m : Mapping} {page : ℕ} {layout : NodeLayout}
    (hm : m.Guards page layout.nodeSize.toNat) (hpage : layout.nodeAlignment.toNat ≤ page)
    {l : List Taken} (hnodes : ∀ y ∈ l, NodeTaken layout y)
    (hstack : Stacked Taken.size Taken.top m.hi l) :
    (∀ y ∈ l, m.Holds y.block) ↔ l.length = 0 ∨
      (l.length - 1) * layout.reservation.toNat + layout.nodeSize.toNat ≤ m.hi - m.guardEnd := by
  cases l with
  | nil => simp
  | cons x l =>
    rw [List.length_cons, Nat.add_sub_cancel]
    refine ⟨fun h => .inr (room_of_forall_holds hm hpage (layout.valid hm hpage) hnodes hstack h),
      fun h => forall_holds_of_room hm hpage hnodes hstack (h.resolve_left (by simp))⟩

/-- **When a non-blocking pool sized by `required_storage` holds the list nodes.** For every
distribution of `n` completed `push_front` calls over threads and every interleaving of their
allocations, all `n` nodes lie in the accessible region of the pool's mapping if and only if the
reservations of all nodes but the last, together with the bytes of the last, fit the page-rounded
usable bytes. -/
theorem nonblocking_holds_nodes_iff {os : Os} (hos : os.Lawful) {layout : NodeLayout}
    (hpage : layout.nodeAlignment.toNat ≤ os.page) {n bytes : SizeT}
    (hreq : requiredStorage layout n = .ok bytes) {process process' : Process}
    {pool : NonblockingDownwardPool}
    (hmake : NonblockingDownwardPool.make os bytes layout.nodeSize process =
      (.ok pool, process')) :
    ∃ m, process'.mappings = m :: process.mappings ∧ m.storage = pool.storage ∧
      ∀ ops : List NonblockingOp,
      (∀ op ∈ ops, NonblockingRun.CallsMeet
        (fun bytes alignment => (bytes, alignment) = allocatorRequest layout 1) op) →
      ∀ s, Transition.run NonblockingRun.next (NonblockingRun.start pool) ops = some s →
      (∀ t, s.pc t = .idle) → s.returned.length = n.toNat →
      ((∀ x ∈ s.returned, m.Holds x.block) ↔
        n.toNat = 0 ∨ (n.toNat - 1) * layout.reservation.toNat + layout.nodeSize.toNat ≤
          (roundUp bytes (BitVec.ofInt 64 os.pageSize)).toNat) := by
  obtain ⟨hstorage, -⟩ := NonblockingDownwardPool.make_ok hmake
  rcases Nat.eq_zero_or_pos n.toNat with hzero | hpos
  · obtain ⟨u, g, -, -, -, hbytes, -, hmappings⟩ := makeDownwardPoolStorage_ok hos hstorage
    refine ⟨_, hmappings, by rw [Mapping.storage, ← hbytes], ?_⟩
    intro ops _ s _ _ hlen
    have hnil : s.returned = [] := List.length_eq_zero_iff.mp (hlen.trans hzero)
    simp [hnil, hzero]
  · have hmax := nodeSize_nowrap hos hpos.ne' hreq hstorage
    obtain ⟨m, hm, hms, -, hbytes, hmem⟩ := makeDownwardPoolStorage_guards hos hmax hstorage
    refine ⟨m, hmem, hms, ?_⟩
    intro ops hops s hrun hidle hlen
    have h : s.Ok pool.storage m.hi _ := NonblockingRun.run_ok
      (NonblockingRun.start_ok (hms ▸ hm.toNat_mappingEnd)) hops hrun
    have hperm := h.perm_of_idle hidle
    have hnodes : ∀ x ∈ s.taken, NodeTaken layout x := by
      intro x hx
      simpa [NodeTaken] using h.requests x hx
    have husable : m.hi - m.guardEnd =
        (roundUp bytes (BitVec.ofInt 64 os.pageSize)).toNat := by
      omega
    rw [← husable, ← hlen, ← hperm.length_eq, ← forall_holds_iff hm hpage hnodes h.stacked]
    exact forall_congr' fun x => by rw [hperm.mem_iff]

/-- The layout of a node with an `int`-sized element. -/
def NodeLayout.int : NodeLayout where
  nodeSize := 16
  nodeAlignment := 8
  pow := ⟨3, rfl⟩
  pointer_le := by decide
  size_pos := by decide
  dvd_size := by decide

/-- The layout of a node whose element fills, and is aligned to, 2048 bytes. -/
def NodeLayout.halfPage : NodeLayout where
  nodeSize := 4096
  nodeAlignment := 2048
  pow := ⟨11, rfl⟩
  pointer_le := by decide
  size_pos := by decide
  dvd_size := by decide

/-- Two threads push one node each into a pool sized for two nodes. -/
theorem nonblocking_holds_nodes_iff_int :
    ∃ m : Mapping, m.storage = ⟨0x10000, 0x2000⟩ ∧
      ∃ s, Transition.run NonblockingRun.next
          (NonblockingRun.start ⟨⟨0x10000, 0x2000⟩, 0x12000⟩)
          [.call 0 16 8, .call 1 16 8, .fetchSub 1, .fetchSub 0, .ret 0, .ret 1] = some s ∧
        s.returned.length = 2 ∧ ∀ x ∈ s.returned, m.Holds x.block := by
  obtain ⟨m, -, hms, hruns⟩ := nonblocking_holds_nodes_iff Os.fixed_lawful (by decide)
    (show requiredStorage NodeLayout.int 2 = .ok 32 from rfl)
    (show NonblockingDownwardPool.make Os.fixed 32 16 ⟨[], none, []⟩ = _ from rfl)
  obtain ⟨s, hs⟩ : ∃ s, Transition.run NonblockingRun.next
      (NonblockingRun.start ⟨⟨0x10000, 0x2000⟩, 0x12000⟩)
      [.call 0 16 8, .call 1 16 8, .fetchSub 1, .fetchSub 0, .ret 0, .ret 1] = some s := ⟨_, rfl⟩
  have hlen : (Transition.run NonblockingRun.next
      (NonblockingRun.start ⟨⟨0x10000, 0x2000⟩, 0x12000⟩)
      [.call 0 16 8, .call 1 16 8, .fetchSub 1, .fetchSub 0, .ret 0, .ret 1]).map
      (fun s => s.returned.length) = some 2 := rfl
  have hidle : ∀ t, (Transition.run NonblockingRun.next
      (NonblockingRun.start ⟨⟨0x10000, 0x2000⟩, 0x12000⟩)
      [.call 0 16 8, .call 1 16 8, .fetchSub 1, .fetchSub 0, .ret 0, .ret 1]).map
      (fun s => s.pc t) = some .idle := by
    rintro (_ | _ | t) <;> rfl
  simp only [hs, Option.map_some, Option.some.injEq] at hlen hidle
  refine ⟨m, hms, s, hs, hlen, (hruns _ ?_ s hs hidle hlen).mpr (.inr (by decide))⟩
  intro op hop
  simp only [List.mem_cons, List.not_mem_nil, or_false] at hop
  rcases hop with rfl | rfl | rfl | rfl | rfl | rfl <;> first | rfl | trivial

/-- Two pushes into a pool sized for two half-page nodes: the second node is in the guard. -/
theorem nonblocking_node_in_guard :
    ∃ pool process, requiredStorage NodeLayout.halfPage 2 = .ok 8192 ∧
      NodeLayout.halfPage.nodeAlignment.toNat ≤ Os.fixed.page ∧
      NonblockingDownwardPool.make Os.fixed 8192 NodeLayout.halfPage.nodeSize ⟨[], none, []⟩ =
        (.ok pool, process) ∧
      ∃ m, process.mappings = [m] ∧ m.storage = pool.storage ∧
        ∃ ops : List NonblockingOp,
          (∀ op ∈ ops, NonblockingRun.CallsMeet (fun bytes alignment =>
            (bytes, alignment) = allocatorRequest NodeLayout.halfPage 1) op) ∧
          ∃ s, Transition.run NonblockingRun.next (NonblockingRun.start pool) ops = some s ∧
            (∀ t, s.pc t = .idle) ∧ s.returned.length = 2 ∧
            ∃ x ∈ s.returned, m.InGuard x.block.lo := by
  refine ⟨⟨⟨0x10000, 0x3000⟩, 0x13000⟩, _, rfl, by decide, rfl, ⟨0x10000, 0x3000, 0x1000⟩, rfl,
    rfl, [.call 0 4096 2048, .fetchSub 0, .ret 0, .call 0 4096 2048, .fetchSub 0, .ret 0], ?_, _,
    rfl, ?_, rfl, ⟨0, 4096, 2048, 0x11800⟩, List.mem_cons.mpr (.inl rfl), by decide⟩
  · intro op hop
    simp only [List.mem_cons, List.not_mem_nil, or_false] at hop
    rcases hop with rfl | rfl | rfl | rfl | rfl | rfl <;> first | rfl | trivial
  · rintro (_ | t) <;> rfl

end Doost.Lists
