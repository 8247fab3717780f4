import Doost.Benchmarks.RunThreads
import Doost.Lists.SharedPool

/-!
# Threads over one non-blocking pool

The benchmark of `global_nonblocking_pool_benchmark`: the threads of `run_threads` fill lists over
one `NonblockingDownwardPool`. In `allocate` only the `fetch_sub` touches what the threads share, so
that others can come between it and the placement of the node, and between `allocate` and the rest
of `push_front`.

The pool is made for the bytes of the nodes alone, and a reservation can be more than a node.
`global_nonblocking_pool_exact`: with room for all reservations but the last and one node, every
order of the steps ends with all nodes pushed, and with a cursor that says so.
-/

namespace Doost.Benchmarks

open Transition Pools Doost.Lists DownwardStack

namespace GlobalNonblockingPool

/-! ## The program -/

/-- What the threads share: the pool with the calls of `allocate` on it, and the memory of the
nodes. The list of a thread has its number. -/
structure Shared where
  calls : NonblockingRun
  heap : NodeHeap UIntPtr Unit (BitVec 32)

/-- Where a thread is in the function of the benchmark. -/
inductive Place
  /-- Next the list is constructed. -/
  | constructing
  /-- At the head of the loop of `fill_list`. -/
  | filling (i : ℕ)
  /-- In the `allocate` of `push_front`, before the `fetch_sub`. -/
  | allocating (i : ℕ)
  /-- Next the node is placed below the cursor that was read. -/
  | placing (i : ℕ)
  /-- `allocate` has returned; next the node is constructed and linked. -/
  | linking (i : ℕ) (node : UIntPtr)
  /-- The nodes are given up; next the list is destroyed. -/
  | leaving

abbrev Step := Option (Progress Place PoolError × Shared)

/-- A call on the list of the thread. -/
def call (op : ListOp UIntPtr Unit (BitVec 32)) (progress : Progress Place PoolError)
    (shared : Shared) : Step :=
  match shared.heap.perform (poolTraits id) ⟨op, [], []⟩ with
  | some (.ok (), heap) => some (progress, { shared with heap := heap })
  | _ => none

/-- A step of `allocate`. -/
def access (op : NonblockingOp) (place : Place) (shared : Shared) : Step :=
  (shared.calls.next op).map fun calls => (.goesOn place, { shared with calls := calls })

/-- The function that `run_threads` is called with. -/
def function (layout : NodeLayout) (nodeCount : SizeT) :
    ThreadFunction Shared Place Unit PoolError where
  start _ := .constructing
  step index place _ shared :=
    match place with
    | .constructing => call (.construct index ()) (.goesOn (.filling 0)) shared
    | .filling i =>
      if i = nodeCount.toNat then call (.releaseNodes index) (.goesOn .leaving) shared
      else
        let (bytes, alignment) := allocatorRequest layout 1
        access (.call index bytes alignment) (.allocating i) shared
    | .allocating i => access (.fetchSub index) (.placing i) shared
    | .placing i =>
      match shared.calls.pc index with
      | .subtracted x => access (.ret index) (.linking i x.block.address) shared
      | _ => none
    | .linking i node =>
      -- what is left of `push_front` is between the thread, its list and its node
      match shared.heap.perform (poolTraits id)
          ⟨.pushFront index (.value (BitVec.ofNat 32 i)) index, [some node], [true]⟩ with
      | some (.error .fault, heap) => some (.crashes, { shared with heap := heap })
      | some (.ok (), heap) => some (.goesOn (.filling (i + 1)), { shared with heap := heap })
      | _ => none
    | .leaving => call (.destroy index) (.ends (.ok ())) shared

/-- The pool over the mapping `m`, and no list. -/
def start (m : Mapping) (pool : NonblockingDownwardPool) : Shared where
  calls := .start pool
  heap := .start (accessibleIn m)

/-! ## Room for the nodes -/

variable {page total : ℕ} {layout : NodeLayout} {m : Mapping}

/-- The mapping has room for the reservations of `total` nodes, of the last one only the node. -/
structure Room (page : ℕ) (layout : NodeLayout) (total : ℕ) (m : Mapping) : Prop where
  guards : m.Guards page layout.nodeSize.toNat
  alignment_le : layout.nodeAlignment.toNat ≤ page
  room : total = 0 ∨
    (total - 1) * layout.reservation.toNat + layout.nodeSize.toNat ≤ m.hi - m.guardEnd

theorem Room.valid (h : Room page layout total m) :
    Request.Valid layout.nodeSize layout.nodeAlignment :=
  layout.valid h.guards h.alignment_le

theorem Room.mono {k : ℕ} (h : Room page layout total m) (hk : k ≤ total) :
    Room page layout k m where
  guards := h.guards
  alignment_le := h.alignment_le
  room := by
    rcases Nat.eq_zero_or_pos k with hzero | hpos
    · exact Or.inl hzero
    · refine Or.inr ((Nat.add_le_add_right (Nat.mul_le_mul_right _ ?_) _).trans
        (h.room.resolve_left ?_)) <;> omega

/-- The reservations end above address zero, the last one possibly in the guard. -/
theorem Room.reserved_lt (h : Room page layout total m) :
    total * layout.reservation.toNat < m.hi := by
  have hlo : layout.nodeAlignment.toNat ≤ m.lo :=
    h.alignment_le.trans (Nat.le_of_dvd h.guards.lo_pos h.guards.begin_dvd)
  have hend := h.guards.guardEnd_le_hi
  have hguard : m.guardEnd = m.lo + m.guardBytes.toNat := rfl
  have hmax := h.guards.maxAlloc_le
  have hpos := layout.size_pos
  have hreservation := layout.reservation_le h.valid
  cases total with
  | zero => omega
  | succ k =>
    have hroom := h.room.resolve_left (Nat.succ_ne_zero k)
    rw [Nat.add_sub_cancel] at hroom
    rw [Nat.succ_mul]
    omega

/-- The nodes that have been cut off are above the guard, and the last one is at none of the
addresses of the others. -/
theorem Room.nodes {x : Taken} {l : List Taken} (h : Room page layout (l.length + 1) m)
    (hnodes : ∀ y ∈ x :: l, NodeTaken layout y)
    (hstack : Stacked Taken.size Taken.top m.hi (x :: l)) :
    accessibleIn m x.block.address = true ∧ ∀ y ∈ l, y.block.address ≠ x.block.address := by
  have hx := hnodes x List.mem_cons_self
  have hpos := layout.size_pos
  have hholds : m.Holds x.block :=
    (forall_holds_iff h.guards h.alignment_le hnodes hstack).mpr h.room x List.mem_cons_self
  have htotal : DownwardStack.total Taken.size (x :: l) ≤ m.hi := by
    rw [total_eq_of_forall Taken.size fun y hy => (hnodes y hy).size_eq]
    exact h.reserved_lt.le
  have hsize : ∀ y ∈ x :: l, layout.nodeSize.toNat ≤ y.size ∧ y.size ≤ y.top := by
    intro y hy
    have hle := le_reservation h.valid
    have hbounds := (hstack.bounds htotal y hy).1
    rw [(hnodes y hy).size_eq] at hbounds ⊢
    exact ⟨(Nat.le_add_right _ _).trans hle, by omega⟩
  -- the block ends where it may, so a node above it begins at its end or later
  have hspec : ∀ y ∈ x :: l, layout.nodeAlignment.toNat ∣ y.block.lo ∧
      y.block.lo + layout.nodeSize.toNat ≤ y.top ∧ ∀ v, layout.nodeAlignment.toNat ∣ v →
        v + layout.nodeSize.toNat ≤ y.top → v ≤ y.block.lo := by
    intro y hy
    obtain ⟨hbytes, halignment⟩ := hnodes y hy
    obtain ⟨hle, hle'⟩ := hsize y hy
    have hpow : y.alignment.toNat.isPowerOfTwo := halignment ▸ layout.pow
    obtain ⟨hdvd, hbelow, -, hmax⟩ :=
      alignDownwardPoolCursor_spec y.current y.bytes hpow (hbytes ▸ hle.trans hle')
    change y.block.lo + y.bytes.toNat ≤ y.top at hbelow
    rw [hbytes] at hbelow
    refine ⟨halignment ▸ hdvd, hbelow, fun v hv hfit => (hmax v (halignment ▸ hv)).mpr ?_⟩
    rw [hbytes]
    exact hfit
  obtain ⟨hdvd, hbelow, -⟩ := hspec x List.mem_cons_self
  refine ⟨?_, fun y hy heq => ?_⟩
  · have hhi : x.block.hi = x.block.lo + x.bytes.toNat := rfl
    obtain ⟨hlo, hend⟩ := hholds
    rw [hx.1] at hhi
    rw [accessibleIn, decide_eq_true_eq]
    change m.guardEnd ≤ x.block.lo ∧ x.block.lo < m.hi
    omega
  · have habove := (List.pairwise_cons.mp (hstack.pairwise htotal)).1 y hy
    have hle := (hsize y (List.mem_cons_of_mem x hy)).1
    have hstart := (hspec y (List.mem_cons_of_mem x hy)).2.2
      (x.block.lo + layout.nodeSize.toNat) (Nat.dvd_add hdvd layout.dvd_size) (by omega)
    have hsame : y.block.lo = x.block.lo := congrArg BitVec.toNat heq
    omega

/-! ## The invariant -/

namespace Place

/-- The nodes that a thread which pushes `n` has been given. -/
def given (n : ℕ) : Place → ℕ
  | constructing => 0
  | filling i => i
  | allocating i => i
  | placing i => i + 1
  | linking i _ => i + 1
  | leaving => n

/-- How many numbers the list of the thread holds, while there is one. -/
def pushed : Place → Option ℕ
  | constructing => none
  | filling i | allocating i | placing i | linking i _ => some i
  | leaving => some 0

/-- Where the list of the thread and its call of `allocate` are. -/
def Fits (layout : NodeLayout) (n : ℕ) (list : Option (List (BitVec 32))) (pc : Pc) : Place → Prop
  | constructing => list = none ∧ pc = .idle
  | filling i => i ≤ n ∧ list = some (filled i) ∧ pc = .idle
  | allocating i =>
    i < n ∧ list = some (filled i) ∧ pc = .called layout.nodeSize layout.nodeAlignment
  | placing i => i < n ∧ list = some (filled i) ∧ ∃ x, pc = .subtracted x
  | linking i _ => i < n ∧ list = some (filled i) ∧ pc = .idle
  | leaving => list = some [] ∧ pc = .idle

/-- The thread has cut off the node `p` and not yet made it. -/
def Owes (pc : Pc) (p : UIntPtr) : Place → Prop
  | placing _ => ∃ x, pc = .subtracted x ∧ x.block.address = p
  | linking _ node => node = p
  | _ => False

/-- The steps that a thread has left in the function. -/
def left (n : ℕ) : Place → ℕ
  | constructing => 4 * n + 2
  | filling i => 4 * (n - i) + 1
  | allocating i => 4 * (n - i)
  | placing i => 4 * (n - i) - 1
  | linking i _ => 4 * (n - i) - 2
  | leaving => 0

end Place

/-- The threads of `run_threads`. -/
abbrev FillThread := Thread Place PoolError

namespace FillThread

def given (n : ℕ) : FillThread → ℕ
  | .absent => 0
  | .running place => place.given n
  | .ended _ => n

def pushed : FillThread → Option ℕ
  | .absent | .ended _ => none
  | .running place => place.pushed

def Fits (layout : NodeLayout) (n : ℕ) (list : Option (List (BitVec 32))) (pc : Pc) :
    FillThread → Prop
  | .absent => list = none ∧ pc = .idle
  | .running place => place.Fits layout n list pc
  | .ended (.ok ()) => list = none ∧ pc = .idle
  | .ended (.error _) => False

def Owes (pc : Pc) (p : UIntPtr) : FillThread → Prop
  | .running place => place.Owes pc p
  | _ => False

variable {n : ℕ} {list : Option (List (BitVec 32))} {pc : Pc} {thread : FillThread}

theorem Fits.given_le (h : thread.Fits layout n list pc) : thread.given n ≤ n := by
  cases thread with
  | absent => exact Nat.zero_le n
  | ended result => exact le_rfl
  | running place =>
    cases place with
    | constructing => exact Nat.zero_le n
    | filling i => exact h.1
    | allocating i => exact h.1.le
    | placing i | linking i node => exact Nat.succ_le_of_lt h.1
    | leaving => exact le_rfl

theorem Fits.list_eq (h : thread.Fits layout n list pc) : list = thread.pushed.map filled := by
  cases thread with
  | absent => exact h.1
  | ended result =>
    cases result with
    | ok u => exact h.1
    | error e => exact absurd h id
  | running place =>
    cases place with
    | constructing | leaving => exact h.1
    | filling i | allocating i | placing i | linking i node => exact h.2.1

end FillThread

/-- The requests of the threads. -/
def NodeRequest (layout : NodeLayout) (bytes alignment : SizeT) : Prop :=
  bytes = layout.nodeSize ∧ alignment = layout.nodeAlignment

/-- What holds between two steps: the `fetch_sub`s are those of the threads, and every node that one
of them has cut off is in the heap or still owed by this thread alone. -/
structure Inv (m : Mapping) (layout : NodeLayout) (n threadCount : ℕ) (shared : Shared)
    (threads : ℕ → FillThread) : Prop where
  calls : shared.calls.Ok m.storage m.hi (NodeRequest layout)
  created : ∀ t, threads t ≠ .absent → t < threadCount
  count : shared.calls.taken.length = ∑ t ∈ Finset.range threadCount, (threads t).given n
  heap : HeapOk m shared.heap
  cells : ∀ q, (shared.heap.phase q).isSome → ∃ x ∈ shared.calls.taken, x.block.address = q
  fits : ∀ t, (threads t).Fits layout n (shared.heap.sequences t) (shared.calls.pc t)
  owed : ∀ t p, (threads t).Owes (shared.calls.pc t) p →
    shared.heap.phase p = none ∧ accessibleIn m p = true ∧
      ∃ x ∈ shared.calls.taken, x.block.address = p
  apart : ∀ t u p, (threads t).Owes (shared.calls.pc t) p →
    (threads u).Owes (shared.calls.pc u) p → t = u

variable {n threadCount t : ℕ} {shared shared' : Shared} {threads : ℕ → FillThread}
  {thread thread' : FillThread} {place : Place}

/-- One thread has been given something else. -/
theorem sum_given_update (threads : ℕ → FillThread) (n : ℕ) (ht : t < threadCount)
    (thread : FillThread) :
    ∑ u ∈ Finset.range threadCount, (Function.update threads t thread u).given n +
        (threads t).given n =
      ∑ u ∈ Finset.range threadCount, (threads u).given n + thread.given n := by
  have hothers : ∀ u, u ≠ t → (Function.update threads t thread u).given n = (threads u).given n :=
    fun u hne => by rw [Function.update_of_ne hne]
  have hself : (Function.update threads t thread t).given n = thread.given n := by
    rw [Function.update_self]
  refine le_antisymm
    (sum_range_step ht (fun u _ hne => (hothers u hne).le) ?_)
    (sum_range_step ht (fun u _ hne => (hothers u hne).ge) ?_)
  · rw [hself, Nat.add_comm]
  · rw [hself, Nat.add_comm]

theorem Inv.lt_of_running (h : Inv m layout n threadCount shared threads)
    (ht : threads t = .running place) : t < threadCount := by
  refine h.created t fun habsent => ?_
  cases habsent.symm.trans ht

/-- With a node left to be given to a thread, fewer than all have been. -/
theorem Inv.length_lt (h : Inv m layout n threadCount shared threads) (ht : t < threadCount)
    (hgiven : (threads t).given n < n) : shared.calls.taken.length < n * threadCount := by
  have hlt : ∑ u ∈ Finset.range threadCount, (threads u).given n <
      ∑ _u ∈ Finset.range threadCount, n :=
    Finset.sum_lt_sum (fun u _ => (h.fits u).given_le) ⟨t, Finset.mem_range.mpr ht, hgiven⟩
  rw [Finset.sum_const, Finset.card_range, smul_eq_mul, Nat.mul_comm] at hlt
  rwa [h.count]

/-- A step of thread `t` that cuts off no node. -/
theorem Inv.move (h : Inv m layout n threadCount shared threads) (ht : threads t = thread)
    (hlt : t < threadCount) (hcalls : shared'.calls.Ok m.storage m.hi (NodeRequest layout))
    (htaken : shared'.calls.taken = shared.calls.taken) (hheap : HeapOk m shared'.heap)
    (hothers : ∀ u, u ≠ t → shared'.heap.sequences u = shared.heap.sequences u ∧
      shared'.calls.pc u = shared.calls.pc u)
    (hgiven : thread'.given n = thread.given n)
    (hfits : thread'.Fits layout n (shared'.heap.sequences t) (shared'.calls.pc t))
    (howes : ∀ p, thread'.Owes (shared'.calls.pc t) p → thread.Owes (shared.calls.pc t) p)
    (hcells : ∀ q, (shared'.heap.phase q).isSome → (shared.heap.phase q).isSome ∨
      (thread.Owes (shared.calls.pc t) q ∧ ¬ thread'.Owes (shared'.calls.pc t) q)) :
    Inv m layout n threadCount shared' (Function.update threads t thread') := by
  subst ht
  have howes' : ∀ u p, (Function.update threads t thread' u).Owes (shared'.calls.pc u) p →
      (threads u).Owes (shared.calls.pc u) p := by
    intro u p hp
    rcases eq_or_ne u t with rfl | hne
    · rw [Function.update_self] at hp
      exact howes p hp
    · rwa [Function.update_of_ne hne, (hothers u hne).2] at hp
  refine ⟨hcalls, fun u hu => ?_, ?_, hheap, fun q hq => ?_, fun u => ?_, fun u p hp => ?_,
    fun u v p hu hv => h.apart u v p (howes' u p hu) (howes' v p hv)⟩
  · rcases eq_or_ne u t with rfl | hne
    · exact hlt
    · rw [Function.update_of_ne hne] at hu
      exact h.created u hu
  · have hsum := sum_given_update threads n hlt thread'
    rw [hgiven] at hsum
    rw [htaken, h.count]
    omega
  · rw [htaken]
    rcases hcells q hq with hq | ⟨hq, -⟩
    · exact h.cells q hq
    · exact (h.owed t q hq).2.2
  · rcases eq_or_ne u t with rfl | hne
    · rwa [Function.update_self]
    · rw [Function.update_of_ne hne, (hothers u hne).1, (hothers u hne).2]
      exact h.fits u
  · have hp' := howes' u p hp
    obtain ⟨hfree, haccessible, hmem⟩ := h.owed u p hp'
    refine ⟨?_, haccessible, htaken ▸ hmem⟩
    by_contra hsome
    rcases hcells p (Option.isSome_iff_ne_none.mpr hsome) with hq | ⟨hq, hnot⟩
    · rw [hfree] at hq
      cases hq
    · -- the node is the one that thread `t` has made
      obtain rfl : u = t := h.apart u t p hp' hq
      rw [Function.update_self] at hp
      exact hnot hp

/-- A `fetch_sub` cuts off a node that nobody has. -/
theorem Inv.fetchSub (hroom : Room page layout (n * threadCount) m)
    (h : Inv m layout n threadCount shared threads) {i : ℕ}
    (ht : threads t = .running (.allocating i)) :
    ∃ calls, shared.calls.next (.fetchSub t) = some calls ∧
      Inv m layout n threadCount { shared with calls := calls }
        (Function.update threads t (.running (.placing i))) := by
  have hlt : t < threadCount := h.lt_of_running ht
  have hfits := h.fits t
  rw [ht] at hfits
  obtain ⟨hi, hlist, hpc⟩ := hfits
  let x : Taken := ⟨t, layout.nodeSize, layout.nodeAlignment, shared.calls.pool.cursor⟩
  have hcalls := NonblockingRun.fetchSub_ok h.calls hpc
  have hgiven : (threads t).given n = i := by
    rw [ht]
    rfl
  have hlength := h.length_lt hlt (hgiven.trans_lt hi)
  obtain ⟨haccessible, hfresh⟩ := (hroom.mono hlength).nodes (x := x) hcalls.requests hcalls.stacked
  let threads' : ℕ → FillThread := Function.update threads t (.running (.placing i))
  let pc' : ℕ → Pc := Function.update shared.calls.pc t (.subtracted x)
  have hthread : threads' t = .running (.placing i) := Function.update_self ..
  have hpc' : pc' t = .subtracted x := Function.update_self ..
  have hothers : ∀ u, u ≠ t → threads' u = threads u ∧ pc' u = shared.calls.pc u :=
    fun u hne => ⟨Function.update_of_ne hne .., Function.update_of_ne hne ..⟩
  have hself : ∀ p, (threads' t).Owes (pc' t) p → x.block.address = p := by
    intro p hp
    rw [hthread, hpc'] at hp
    obtain ⟨y, hy, haddress⟩ := hp
    rwa [Pc.subtracted.inj hy]
  have hother : ∀ u p, u ≠ t → (threads' u).Owes (pc' u) p →
      (threads u).Owes (shared.calls.pc u) p := by
    intro u p hne hp
    rwa [(hothers u hne).1, (hothers u hne).2] at hp
  have hnew : ∀ u, u ≠ t → ¬ (threads' u).Owes (pc' u) x.block.address := by
    intro u hne hp
    obtain ⟨-, -, y, hy, haddress⟩ := h.owed u _ (hother u _ hne hp)
    exact hfresh y hy haddress
  refine ⟨_, by simp only [NonblockingRun.next, hpc], hcalls, fun u hu => ?_, ?_, h.heap,
    fun q hq => ?_, fun u => ?_, fun u p hp => ?_, fun u v p hu hv => ?_⟩
  · rcases eq_or_ne u t with rfl | hne
    · exact hlt
    · exact h.created u ((hothers u hne).1 ▸ hu)
  · have hsum := sum_given_update threads n hlt (.running (.placing i))
    have hplacing : FillThread.given n (.running (.placing i)) = i + 1 := rfl
    rw [hgiven, hplacing] at hsum
    rw [List.length_cons, h.count]
    omega
  · obtain ⟨y, hy, haddress⟩ := h.cells q hq
    exact ⟨y, List.mem_cons_of_mem x hy, haddress⟩
  · change (threads' u).Fits layout n (shared.heap.sequences u) (pc' u)
    rcases eq_or_ne u t with rfl | hne
    · rw [hthread]
      exact ⟨hi, hlist, x, hpc'⟩
    · rw [(hothers u hne).1, (hothers u hne).2]
      exact h.fits u
  · rcases eq_or_ne u t with rfl | hne
    · obtain rfl := hself p hp
      refine ⟨?_, haccessible, x, List.mem_cons_self, rfl⟩
      by_contra hsome
      obtain ⟨y, hy, haddress⟩ := h.cells _ (Option.isSome_iff_ne_none.mpr hsome)
      exact hfresh y hy haddress
    · obtain ⟨hfree, hacc, y, hy, haddress⟩ := h.owed u p (hother u p hne hp)
      exact ⟨hfree, hacc, y, List.mem_cons_of_mem x hy, haddress⟩
  · rcases eq_or_ne u t with hut | hut <;> rcases eq_or_ne v t with hvt | hvt
    · exact hut.trans hvt.symm
    · subst hut
      obtain rfl := hself p hu
      exact absurd hv (hnew v hvt)
    · subst hvt
      obtain rfl := hself p hv
      exact absurd hu (hnew u hut)
    · exact h.apart u v p (hother u p hut hu) (hother v p hvt hv)

/-! ## Every step -/

/-- A call of a thread on its list that needs no node. -/
theorem Inv.call (h : Inv m layout n threadCount shared threads) (ht : threads t = .running place)
    {op : ListOp UIntPtr Unit (BitVec 32)} {progress : Progress Place PoolError}
    (thread : FillThread) (list : Option (List (BitVec 32)))
    (hprogress : progress.thread = some thread)
    (hop : shared.heap.acceptsOp op = true) (hneeds : shared.heap.needs op = 0)
    (hpop : ∀ i, op ≠ .popFront i)
    (hmeaning : shared.heap.sequences.apply id (shared.heap.meaning op) =
      Function.update shared.heap.sequences t list)
    (hgiven : thread.given n = place.given n)
    (hfits : thread.Fits layout n list (shared.calls.pc t))
    (howes : ∀ p, ¬ thread.Owes (shared.calls.pc t) p)
    (hleft : ∀ place', progress = .goesOn place' → place'.left n < place.left n) :
    StepsTo (Inv m layout n threadCount) (Place.left n) threads t place
      (GlobalNonblockingPool.call op progress shared) := by
  have hlt : t < threadCount := h.lt_of_running ht
  obtain ⟨heap, hrun, hheap, hcells, hsequences⟩ := h.heap.call hop hneeds hpop
  rw [hmeaning] at hsequences
  refine ⟨progress, { shared with heap := heap }, thread, ?_, hprogress, ?_, hleft⟩
  · simp only [GlobalNonblockingPool.call, hrun]
  · refine h.move ht hlt h.calls rfl hheap (fun u hne => ⟨?_, rfl⟩) hgiven ?_
      (fun p hp => absurd hp (howes p)) fun q hq => Or.inl (hcells q hq)
    · dsimp only
      rw [hsequences, Function.update_of_ne hne]
    · dsimp only
      rwa [hsequences, Function.update_self]

/-- A call of `allocate`, or its return. -/
theorem Inv.access (h : Inv m layout n threadCount shared threads) (ht : threads t = .running place)
    {op : NonblockingOp} {calls : NonblockingRun} (place' : Place)
    (hnext : shared.calls.next op = some calls)
    (hcalls : calls.Ok m.storage m.hi (NodeRequest layout))
    (htaken : calls.taken = shared.calls.taken)
    (hothers : ∀ u, u ≠ t → calls.pc u = shared.calls.pc u)
    (hgiven : place'.given n = place.given n)
    (hfits : place'.Fits layout n (shared.heap.sequences t) (calls.pc t))
    (howes : ∀ p, place'.Owes (calls.pc t) p → place.Owes (shared.calls.pc t) p)
    (hleft : place'.left n < place.left n) :
    StepsTo (Inv m layout n threadCount) (Place.left n) threads t place
      (GlobalNonblockingPool.access op place' shared) := by
  have hlt : t < threadCount := h.lt_of_running ht
  have hstep : GlobalNonblockingPool.access op place' shared =
      some (.goesOn place', { shared with calls := calls }) := by
    rw [GlobalNonblockingPool.access, hnext]
    rfl
  exact .goesOn hstep (h.move ht hlt hcalls htaken h.heap (fun u hne => ⟨rfl, hothers u hne⟩)
    hgiven hfits howes fun q hq => Or.inl hq) hleft

/-- The rest of `push_front`. -/
theorem Inv.link (h : Inv m layout n threadCount shared threads) {i : ℕ} {p : UIntPtr}
    (ht : threads t = .running (.linking i p)) :
    ∃ heap, shared.heap.perform (poolTraits id)
        ⟨.pushFront t (.value (BitVec.ofNat 32 i)) t, [some p], [true]⟩ = some (.ok (), heap) ∧
      Inv m layout n threadCount { shared with heap := heap }
        (Function.update threads t (.running (.filling (i + 1)))) := by
  have hlt : t < threadCount := h.lt_of_running ht
  have hfits := h.fits t
  rw [ht] at hfits
  obtain ⟨hi, hlist, hpc⟩ := hfits
  have howes : (threads t).Owes (shared.calls.pc t) p := by
    rw [ht]
    rfl
  obtain ⟨hfree, haccessible, -⟩ := h.owed t p howes
  obtain ⟨heap, hrun, hheap, hcells, hsequences⟩ :=
    h.heap.push hlist hfree haccessible (v := BitVec.ofNat 32 i)
  refine ⟨heap, hrun, h.move ht hlt h.calls rfl hheap (fun u hne => ⟨?_, rfl⟩) rfl ?_
    (fun q hq => absurd hq id) fun q hq => ?_⟩
  · dsimp only
    rw [hsequences, Function.update_of_ne hne]
  · dsimp only
    rw [hsequences, Function.update_self]
    exact ⟨Nat.succ_le_of_lt hi, rfl, hpc⟩
  · rcases hcells q hq with rfl | hq
    · exact Or.inr ⟨rfl, id⟩
    · exact Or.inl hq

variable {nodeCount : SizeT}

/-- The step of thread `t` at `place` is defined and constructs no node outside the pool; it keeps
the invariant, and is one of those that the thread has left. -/
abbrev Steps (m : Mapping) (layout : NodeLayout) (nodeCount : SizeT) (threadCount : ℕ)
    (shared : Shared) (threads : ℕ → FillThread) (t : ℕ) (place : Place) : Prop :=
  StepsTo (Inv m layout nodeCount.toNat threadCount) (Place.left nodeCount.toNat) threads t place
    ((function layout nodeCount).step t place () shared)

theorem Inv.step_constructing (h : Inv m layout nodeCount.toNat threadCount shared threads)
    (ht : threads t = .running .constructing) :
    Steps m layout nodeCount threadCount shared threads t .constructing := by
  have hfits := h.fits t
  have hlists := h.heap.lists t
  rw [ht] at hfits
  obtain ⟨hlist, hpc⟩ := hfits
  have hop : shared.heap.acceptsOp (.construct t ()) = true := by
    rw [hlist] at hlists
    simpa only [NodeHeap.acceptsOp, Option.isNone_iff_eq_none, Option.isSome_none,
      Option.isSome_eq_false_iff] using hlists
  refine h.call ht (.running (.filling 0)) (some []) rfl hop rfl (fun i hpop => by cases hpop) rfl
    rfl ⟨Nat.zero_le _, rfl, hpc⟩ (fun _ => id) fun place' heq => ?_
  cases heq
  simp only [Place.left]
  omega

/-- The end of the loop: the nodes are given up. -/
theorem Inv.step_releasing (h : Inv m layout nodeCount.toNat threadCount shared threads)
    (ht : threads t = .running (.filling nodeCount.toNat)) :
    Steps m layout nodeCount threadCount shared threads t (.filling nodeCount.toNat) := by
  have hfits := h.fits t
  have hlists := h.heap.lists t
  rw [ht] at hfits
  obtain ⟨-, hlist, hpc⟩ := hfits
  have hop : shared.heap.acceptsOp (.releaseNodes t) = true := by
    rw [hlist] at hlists
    exact hlists
  have hfunction : (function layout nodeCount).step t (.filling nodeCount.toNat) () shared =
      GlobalNonblockingPool.call (.releaseNodes t) (.goesOn .leaving) shared := if_pos rfl
  rw [Steps, hfunction]
  refine h.call ht (.running .leaving) (some []) rfl hop rfl (fun i hpop => by cases hpop) rfl
    rfl ⟨rfl, hpc⟩ (fun _ => id) fun place' heq => ?_
  cases heq
  simp only [Place.left]
  omega

/-- The call of `allocate`. -/
theorem Inv.step_calling (h : Inv m layout nodeCount.toNat threadCount shared threads) {i : ℕ}
    (ht : threads t = .running (.filling i)) (hend : i ≠ nodeCount.toNat) :
    Steps m layout nodeCount threadCount shared threads t (.filling i) := by
  have hfits := h.fits t
  rw [ht] at hfits
  obtain ⟨hi, hlist, hpc⟩ := hfits
  have hlt : i < nodeCount.toNat := lt_of_le_of_ne hi hend
  have hfunction : (function layout nodeCount).step t (.filling i) () shared =
      GlobalNonblockingPool.access (.call t layout.nodeSize layout.nodeAlignment)
        (.allocating i) shared := by
    have hrequest : allocatorRequest layout 1 = (layout.nodeSize, layout.nodeAlignment) :=
      allocatorRequest_one layout
    simp only [function, if_neg hend]
    rw [hrequest]
  have hnext : shared.calls.next (.call t layout.nodeSize layout.nodeAlignment) =
      some { shared.calls with
        pc := Function.update shared.calls.pc t
          (.called layout.nodeSize layout.nodeAlignment) } := by
    simp only [NonblockingRun.next, hpc]
  rw [Steps, hfunction]
  refine h.access ht (.allocating i) hnext (NonblockingRun.call_ok h.calls hpc ⟨rfl, rfl⟩) rfl
    (fun u hne => Function.update_of_ne hne ..) rfl ⟨hlt, hlist, Function.update_self ..⟩
    (fun p hp => absurd hp id) ?_
  simp only [Place.left]
  omega

theorem Inv.step_allocating (hroom : Room page layout (nodeCount.toNat * threadCount) m)
    (h : Inv m layout nodeCount.toNat threadCount shared threads) {i : ℕ}
    (ht : threads t = .running (.allocating i)) :
    Steps m layout nodeCount threadCount shared threads t (.allocating i) := by
  have hfits := h.fits t
  rw [ht] at hfits
  have hlt : i < nodeCount.toNat := hfits.1
  obtain ⟨calls, hnext, hinv⟩ := h.fetchSub hroom ht
  refine .goesOn ?_ hinv ?_
  · change (shared.calls.next (.fetchSub t)).map _ = _
    rw [hnext]
    rfl
  · simp only [Place.left]
    omega

theorem Inv.step_placing (h : Inv m layout nodeCount.toNat threadCount shared threads) {i : ℕ}
    (ht : threads t = .running (.placing i)) :
    Steps m layout nodeCount threadCount shared threads t (.placing i) := by
  have hfits := h.fits t
  rw [ht] at hfits
  obtain ⟨hlt, hlist, x, hpc⟩ := hfits
  have hfunction : (function layout nodeCount).step t (.placing i) () shared =
      GlobalNonblockingPool.access (.ret t) (.linking i x.block.address) shared := by
    simp only [function, hpc]
  have hnext : shared.calls.next (.ret t) =
      some { shared.calls with
        pc := Function.update shared.calls.pc t .idle
        returned := x :: shared.calls.returned } := by
    simp only [NonblockingRun.next, hpc]
  rw [Steps, hfunction]
  refine h.access ht (.linking i x.block.address) hnext (NonblockingRun.ret_ok h.calls hpc) rfl
    (fun u hne => Function.update_of_ne hne ..) rfl ⟨hlt, hlist, Function.update_self ..⟩
    (fun p hp => ⟨x, hpc, hp⟩) ?_
  simp only [Place.left]
  omega

theorem Inv.step_linking (h : Inv m layout nodeCount.toNat threadCount shared threads) {i : ℕ}
    {p : UIntPtr} (ht : threads t = .running (.linking i p)) :
    Steps m layout nodeCount threadCount shared threads t (.linking i p) := by
  have hfits := h.fits t
  rw [ht] at hfits
  have hlt : i < nodeCount.toNat := hfits.1
  obtain ⟨heap, hrun, hinv⟩ := h.link ht
  refine .goesOn ?_ hinv ?_
  · simp only [function, hrun]
  · simp only [Place.left]
    omega

theorem Inv.step_leaving (h : Inv m layout nodeCount.toNat threadCount shared threads)
    (ht : threads t = .running .leaving) :
    Steps m layout nodeCount threadCount shared threads t .leaving := by
  have hfits := h.fits t
  have hlists := h.heap.lists t
  rw [ht] at hfits
  obtain ⟨hlist, hpc⟩ := hfits
  have hop : shared.heap.acceptsOp (.destroy t) = true := by
    rw [hlist] at hlists
    exact hlists
  exact h.call ht (.ended (.ok ())) none rfl hop rfl (fun i hpop => by cases hpop) rfl rfl
    ⟨rfl, hpc⟩ (fun _ => id) fun place' heq => by cases heq

/-- **Every step of a thread.** -/
theorem Inv.step (hroom : Room page layout (nodeCount.toNat * threadCount) m)
    (h : Inv m layout nodeCount.toNat threadCount shared threads)
    (ht : threads t = .running place) :
    Steps m layout nodeCount threadCount shared threads t place := by
  cases place with
  | constructing => exact h.step_constructing ht
  | filling i =>
    rcases eq_or_ne i nodeCount.toNat with rfl | hend
    · exact h.step_releasing ht
    · exact h.step_calling ht hend
  | allocating i => exact h.step_allocating hroom ht
  | placing i => exact h.step_placing ht
  | linking i p => exact h.step_linking ht
  | leaving => exact h.step_leaving ht

/-! ## Every run -/

theorem start_inv (hm : m.Guards page layout.nodeSize.toNat) {pool : NonblockingDownwardPool}
    (hs : m.storage = pool.storage) (n threadCount : ℕ) :
    Inv m layout n threadCount (start m pool) fun _ => .absent where
  calls := hs ▸ NonblockingRun.start_ok (hs ▸ hm.toNat_mappingEnd)
  created t ht := absurd rfl ht
  count := (Finset.sum_eq_zero fun _ _ => rfl).symm
  heap := ⟨⟨_, represents_start _ _⟩, rfl, [], fun _ hq => by cases hq⟩
  cells _ hq := by cases hq
  fits _ := ⟨rfl, rfl⟩
  owed _ _ hp := absurd hp id
  apart _ _ _ hp := absurd hp id

/-- The threads of the benchmark keep the invariant. -/
theorem function_keeps (hroom : Room page layout (nodeCount.toNat * threadCount) m) :
    (function layout nodeCount).Keeps threadCount (fun _ _ => True)
      (Inv m layout nodeCount.toNat threadCount) (Place.left nodeCount.toNat) where
  create {shared threads t} hlt h ht := by
    have hfits := h.fits t
    rw [ht] at hfits
    exact h.move ht hlt h.calls rfl h.heap (fun _ _ => ⟨rfl, rfl⟩) rfl hfits
      (fun p hp => absurd hp id) fun q hq => Or.inl hq
  step h _ ht := h.step hroom ht

/-- The used bytes of the pool when all threads are over. -/
theorem Inv.usedBytes {n : ℕ} (hroom : Room page layout (n * threadCount) m)
    (h : Inv m layout n threadCount shared threads)
    (hended : ∀ t < threadCount, (threads t).given n = n) :
    shared.calls.pool.usedBytes.toNat = n * threadCount * layout.reservation.toNat := by
  have hlength : shared.calls.taken.length = n * threadCount := by
    rw [h.count, Finset.sum_congr rfl fun t ht => hended t (Finset.mem_range.mp ht),
      Finset.sum_const, Finset.card_range, smul_eq_mul, Nat.mul_comm]
  have hreserved : shared.calls.reserved = n * threadCount * layout.reservation.toNat := by
    rw [NonblockingRun.reserved, total_eq_of_forall Taken.size fun x hx =>
      NodeTaken.size_eq (h.calls.requests x hx), hlength]
  have hlt := hroom.reserved_lt
  have hcursor := h.calls.cursor_eq (by omega)
  have hne : shared.calls.pool.cursor ≠ 0 := by
    intro hzero
    rw [hzero] at hcursor
    change 0 + _ = _ at hcursor
    omega
  have hhi : m.storage.mappingBegin.toNat + m.storage.mappingBytes.toNat = m.hi := rfl
  rw [NonblockingDownwardPool.usedBytes, h.calls.storage_eq, toNat_downwardPoolUsedBytes m.storage
    hroom.guards.begin_ne hroom.guards.fits (by rw [hhi]; omega), if_neg hne, hhi]
  omega

/-- **The threads of the benchmark get all their nodes from the pool.** A `NonblockingDownwardPool`
is made for `node_storage_required` bytes, the nodes of `threadCount` threads with `nodeCount` nodes
each, and these bytes have room for all reservations but the last and one node. Then in every order
of the steps no construction of a node faults and no thread throws; each list holds the numbers that
its thread has pushed, also inside a `push_front`; until `run_threads` is over, the caller or a
thread can move, and it is over after a number of steps that the counts bound; and when it has
returned, the used bytes of the pool are those of the reservations, which are the required bytes
just if a reservation is a node. -/
theorem global_nonblocking_pool_exact {os : Os} (hos : os.Lawful) {layout : NodeLayout}
    (hpage : layout.nodeAlignment.toNat ≤ os.page) {nodeCount bytes : SizeT}
    {threadCount : BitVec 32} (hreq : nodeStorageRequired layout nodeCount threadCount = .ok bytes)
    (hguard : layout.nodeSize.toNat + (os.page - 1) < 2 ^ 64)
    (hfits : nodeCount.toNat * threadCount.toNat = 0 ∨
      (nodeCount.toNat * threadCount.toNat - 1) * layout.reservation.toNat +
        layout.nodeSize.toNat ≤ (roundUp bytes (BitVec.ofInt 64 os.pageSize)).toNat)
    {process process' : Process} {pool : NonblockingDownwardPool}
    (hmake : NonblockingDownwardPool.make os bytes layout.nodeSize process =
      (.ok pool, process')) :
    ∃ m, process'.mappings = m :: process.mappings ∧ m.storage = pool.storage ∧
      ∀ (ls : List (RunThreads.Label Unit)) (s : RunThreads Shared Place PoolError),
        run (RunThreads.next (function layout nodeCount) threadCount.toNat)
          (RunThreads.start (start m pool)) ls = some s →
        s.caller ≠ .crashed ∧ (∀ e, s.caller ≠ .threw e) ∧
        (∀ t, s.shared.heap.sequences t = (FillThread.pushed (s.threads t)).map filled) ∧
        (s.caller = .returned →
          s.shared.calls.pool.usedBytes.toNat =
            nodeCount.toNat * threadCount.toNat * layout.reservation.toNat ∧
          (s.shared.calls.pool.usedBytes = bytes ↔
            nodeCount.toNat * threadCount.toNat = 0 ∨ layout.reservation = layout.nodeSize)) ∧
        (¬ s.caller.Over → ∃ l,
          (RunThreads.next (function layout nodeCount) threadCount.toNat s l).isSome) ∧
        ls.length ≤ 3 * threadCount.toNat + 4 + threadCount.toNat * (4 * nodeCount.toNat + 3) := by
  obtain ⟨hstorage, -⟩ := NonblockingDownwardPool.make_ok hmake
  obtain ⟨m, hm, hms, -, husable, hmem⟩ := makeDownwardPoolStorage_guards hos hguard hstorage
  have hroom : Room os.page layout (nodeCount.toNat * threadCount.toNat) m :=
    ⟨hm, hpage, hfits.imp_right fun h => by omega⟩
  refine ⟨m, hmem, hms, fun ls s hrun => ?_⟩
  have hkeeps := function_keeps hroom
  have hstart := start_inv hm hms nodeCount.toNat threadCount.toNat
  have hanswers : Along (RunThreads.next (function layout nodeCount) threadCount.toNat)
      (RunThreads.Answered fun _ _ => True) (RunThreads.start (start m pool)) ls :=
    .of_forall fun l _ s => by cases l <;> trivial
  obtain ⟨hok, hinv, hcrashed⟩ := RunThreads.Kept.run hkeeps hstart hanswers hrun
  refine ⟨hcrashed, fun e hthrew => ?_, fun t => (hinv.fits t).list_eq, fun hreturned => ?_,
    fun hover => ?_, ?_⟩
  · obtain ⟨t, -, hended, -⟩ := hok.threw e hthrew
    have hfits := hinv.fits t
    rw [hended] at hfits
    exact hfits
  · have hpassed := hok.passed
    rw [hreturned] at hpassed
    have hused := hinv.usedBytes hroom fun t ht => by
      rw [hpassed t ht]
      rfl
    refine ⟨hused, ?_⟩
    have hbytes : bytes.toNat =
        nodeCount.toNat * threadCount.toNat * layout.nodeSize.toNat := nodeStorageRequired_ok hreq
    rw [← BitVec.toNat_inj, hused, hbytes, mul_eq_mul_left_iff, BitVec.toNat_inj, or_comm]
  · obtain ⟨l, -, hnext⟩ :=
      RunThreads.Kept.exists_next hkeeps ⟨hok, hinv, hcrashed⟩ hover () trivial
    exact ⟨l, hnext⟩
  · exact RunThreads.run_length_le hkeeps hstart (4 * nodeCount.toNat + 2) (fun _ _ => le_rfl)
      hanswers hrun

/-- Two threads with a node each. Thread 1 lowers the cursor before thread 0 has placed its node. -/
def bothSubtract : List (RunThreads.Label Unit) :=
  [.caller true, .caller true, .caller true, .caller true, .thread 0 (), .thread 1 (),
    .thread 0 (), .thread 1 (), .thread 0 (), .thread 1 (), .thread 1 (), .thread 0 (),
    .thread 1 (), .thread 0 (), .thread 0 (), .thread 1 (), .thread 0 (), .thread 1 (),
    .caller true, .caller true, .caller true, .caller true, .caller true, .caller true]

/-- The pool has handed out the bytes of the two nodes. -/
theorem global_nonblocking_pool_exact_bothSubtract :
    ∃ m s, m.storage = ⟨0x10000, 0x2000⟩ ∧
      run (RunThreads.next (function NodeLayout.int 1) 2)
        (RunThreads.start (start m ⟨⟨0x10000, 0x2000⟩, 0x12000⟩)) bothSubtract = some s ∧
      s.caller = .returned ∧ s.shared.calls.pool.usedBytes = 32 := by
  obtain ⟨m, hmem, hms, hruns⟩ := global_nonblocking_pool_exact Os.fixed_lawful (by decide)
    (show nodeStorageRequired NodeLayout.int 1 2 = .ok 32 from rfl) (by decide)
    (Or.inr (by decide))
    (show NonblockingDownwardPool.make Os.fixed 32 16 ⟨[], none, []⟩ = _ from rfl)
  obtain rfl := (List.cons.inj hmem).1
  have hcaller : (run (RunThreads.next (function NodeLayout.int 1) 2)
      (RunThreads.start (start ⟨0x10000, 0x2000, 0x1000⟩ ⟨⟨0x10000, 0x2000⟩, 0x12000⟩))
      bothSubtract).map RunThreads.caller = some .returned := by
    decide +kernel
  obtain ⟨s, hs, hreturned⟩ := Option.map_eq_some_iff.mp hcaller
  obtain ⟨-, -, -, hused, -⟩ := hruns bothSubtract s hs
  exact ⟨_, s, hms, hs, hreturned, (hused hreturned).2.mpr (Or.inr (by decide))⟩

end GlobalNonblockingPool

end Doost.Benchmarks
