import Mathlib.Algebra.BigOperators.Group.Finset.Piecewise
import Doost.Foundations.Potential
import Doost.Lists.PoolLists
import Doost.Pools.MutexPool

/-!
# Threads that fill lists over one pool

The benchmark of lists over one `MutexDownwardPool`: every thread constructs a list over the pool,
pushes its numbers (`fill_list`), gives the nodes up (`release_nodes`) and destroys the list. The
threads interleave in their calls and in the steps of `allocate` (`SharedFill.next`).

The pool is made for the bytes of the nodes alone. `shared_fill_exact`: this is enough for every
schedule, and in the end nothing of it is left.
-/

namespace Doost.Lists

open Program Transition Monitors Pools

/-! ## The benchmark -/

/-- `checked_multiply`. -/
def checkedMultiply (lhs rhs : SizeT) : Except PoolError SizeT :=
  if rhs ≠ 0 ∧ BitVec.allOnes 64 / rhs < lhs then
    .error (.lengthError "benchmark size overflows size_t")
  else .ok (lhs * rhs)

/-- `node_storage_required` of `run_benchmark`. -/
def nodeStorageRequired (layout : NodeLayout) (nodeCount : SizeT) (threadCount : BitVec 32) :
    Except PoolError SizeT := do
  let nodes ← checkedMultiply nodeCount (threadCount.setWidth 64)
  checkedMultiply nodes layout.nodeSize

/-- Where a thread is. -/
inductive FillPc
  /-- Next it constructs its list. -/
  | begin
  /-- At the head of the loop of `fill_list`. -/
  | loop (i : ℕ)
  /-- In the `allocate` of `push_front`. -/
  | allocating (i : ℕ)
  /-- `allocate` has returned; next it constructs the node and links it. -/
  | linking (i : ℕ) (node : UIntPtr)
  /-- The nodes are given up; next it destroys its list. -/
  | leaving
  | finished
  deriving DecidableEq

/-- How many numbers the list of the thread holds, while there is one. -/
def FillPc.pushed : FillPc → Option ℕ
  | .begin | .finished => none
  | .loop i | .allocating i | .linking i _ => some i
  | .leaving => some 0

/-- The pool, the memory of the nodes, and the threads. The list of a thread has its number. -/
structure SharedFill where
  monitor : Monitor MutexState MutexOp MutexPlace MutexResult
  heap : NodeHeap UIntPtr Unit (BitVec 32)
  threads : ℕ → FillPc
  /-- A node was constructed in memory that cannot be written: the process has ended. -/
  fault : Bool

namespace SharedFill

/-- `threadCount` threads before their first step. -/
def start (m : Mapping) (pool : MutexDownwardPool) (process : Process) (threadCount : ℕ) :
    SharedFill where
  monitor := .start (pool, process)
  heap := .start (accessibleIn m)
  threads t := if t < threadCount then .begin else .finished
  fault := false

/-- Who moves: a thread in its own code, or one in a member function of the pool. -/
inductive Label
  | thread (t : ℕ)
  | lock (t : ℕ)
  | body (t : ℕ)
  | unlock (t : ℕ)

/-- A call of thread `t` on its list goes on at `pc`. -/
def calls (s : SharedFill) (t : ℕ) (op : ListOp UIntPtr Unit (BitVec 32)) (pc : FillPc) :
    Option SharedFill :=
  match s.heap.perform (poolTraits id) ⟨op, [], []⟩ with
  | some (.ok (), heap) =>
    some { s with heap := heap, threads := Function.update s.threads t pc }
  | _ => none

/-- The step of a thread in its own code. -/
def threadStep (os : Os) (layout : NodeLayout) (nodeCount : SizeT) (s : SharedFill) (t : ℕ) :
    Option SharedFill :=
  match s.threads t with
  | .begin => s.calls t (.construct t ()) (.loop 0)
  | .loop i =>
    if i = nodeCount.toNat then s.calls t (.releaseNodes t) .leaving
    else
      let (bytes, alignment) := allocatorRequest layout 1
      (s.monitor.next (mutexBody os) (.call t (.allocate bytes alignment))).map fun monitor =>
        { s with monitor := monitor, threads := Function.update s.threads t (.allocating i) }
  | .allocating i =>
    match s.monitor.threads t with
    | .returning _ (.address p) =>
      (s.monitor.next (mutexBody os) (.ret t (.address p))).map fun monitor =>
        { s with monitor := monitor, threads := Function.update s.threads t (.linking i p) }
    | _ => none
  | .linking i p =>
    -- what is left of `push_front` is between the thread, its list and its node
    match s.heap.perform (poolTraits id)
        ⟨.pushFront t (.value (BitVec.ofNat 32 i)) t, [some p], [true]⟩ with
    | some (.error .fault, heap) => some { s with heap := heap, fault := true }
    | some (.ok (), heap) =>
      some { s with heap := heap, threads := Function.update s.threads t (.loop (i + 1)) }
    | _ => none
  | .leaving => s.calls t (.destroy t) .finished
  | .finished => none

/-- The step of a label. -/
def move (os : Os) (layout : NodeLayout) (nodeCount : SizeT) (s : SharedFill) :
    Label → Option SharedFill
  | .thread t => s.threadStep os layout nodeCount t
  | .lock t => (s.monitor.next (mutexBody os) (.lock t)).map fun m => { s with monitor := m }
  | .body t => (s.monitor.next (mutexBody os) (.step t)).map fun m => { s with monitor := m }
  | .unlock t => (s.monitor.next (mutexBody os) (.unlock t)).map fun m => { s with monitor := m }

def next (os : Os) (layout : NodeLayout) (nodeCount : SizeT) (s : SharedFill) (l : Label) :
    Option SharedFill :=
  if s.fault then none else s.move os layout nodeCount l

theorem next_eq_move {os : Os} {layout : NodeLayout} {nodeCount : SizeT} {s : SharedFill}
    (h : s.fault = false) (l : Label) :
    s.next os layout nodeCount l = s.move os layout nodeCount l := by
  rw [next, h, if_neg Bool.false_ne_true]

/-- The threads have been joined. -/
def Joined (s : SharedFill) : Prop := ∀ t, s.threads t = .finished

end SharedFill

/-- The numbers below `i`, the last one first. -/
def filled : ℕ → List (BitVec 32)
  | 0 => []
  | i + 1 => BitVec.ofNat 32 i :: filled i

/-! ## Calls of one thread on the common heap -/

section Succeeds

variable {P A T : Type} [DecidableEq P] {tr : Traits A T} {h : NodeHeap P A T} {C : Chains P A T}
  {t : ListId} {op : ListOp P A T}

/-- A call that needs no node returns. -/
theorem Represents.call (htr : tr.Lawful) (hR : Represents tr h C) (hop : h.acceptsOp op = true)
    (hneeds : h.needs op = 0) (hpop : ∀ i, op ≠ .popFront i) :
    ∃ heap C', h.perform tr ⟨op, [], []⟩ = some (.ok (), heap) ∧
      Performed tr h C ⟨op, [], []⟩ (.ok ()) heap C' ∧
      heap.sequences = h.sequences.apply tr.movedFrom (h.meaning op) := by
  have hlegal : h.legal ⟨op, [], []⟩ = true := by
    simp [NodeHeap.legal, NodeHeap.mayReturn, hop]
  obtain ⟨r, heap, hrun, C', hP⟩ := hR.perform htr hlegal
  have hok : ∀ x, r = .error x → x.thrown = false := hP.supplied (by rw [hneeds]; rfl)
  obtain rfl : r = .ok () := hP.returns hok hpop
  refine ⟨heap, C', hrun, hP, ?_⟩
  rw [hP.represents.sequences, hP.contents hok, ← hR.sequences]

/-- To push a value on a list that is there is legal, whatever `allocate` answers. -/
theorem Represents.legal_push (hR : Represents tr h C) {l : List T} {v : T} {answer : Option P}
    (hlist : h.sequences t = some l) (hreturn : h.mayReturn [answer] = true) :
    h.legal ⟨.pushFront t (.value v) t, [answer], [true]⟩ = true := by
  have hobject : (h.lists t).isSome = true := by
    rw [hR.lists_isSome, hlist]
    rfl
  simp [NodeHeap.legal, NodeHeap.acceptsOp, NodeHeap.acceptsSource, hobject, hreturn]

/-- A push of a node at an address that `allocate` may return. -/
theorem Represents.push (htr : tr.Lawful) (hR : Represents tr h C) {l : List T} {p : P} (v : T)
    (hlist : h.sequences t = some l) (hreturn : h.mayReturn [some p] = true) :
    ∃ heap C', h.perform tr ⟨.pushFront t (.value v) t, [some p], [true]⟩ =
        some (.ok (), heap) ∧
      Performed tr h C ⟨.pushFront t (.value v) t, [some p], [true]⟩ (.ok ()) heap C' ∧
      heap.sequences = Function.update h.sequences t (some (v :: l)) := by
  obtain ⟨r, heap, hrun, C', hP⟩ := hR.perform htr (hR.legal_push hlist hreturn)
  have hok : ∀ x, r = .error x → x.thrown = false := hP.supplied rfl
  obtain rfl : r = .ok () := hP.returns hok fun i hi => by cases hi
  refine ⟨heap, C', hrun, hP, ?_⟩
  rw [hP.represents.sequences, hP.contents hok, ← hR.sequences]
  simp only [NodeHeap.meaning, NodeHeap.argument, Sequences.apply, Sequences.Argument.read,
    Sequences.Argument.leave, hlist, Option.map_some]

end Succeeds

section Calls

variable {h heap : NodeHeap UIntPtr Unit (BitVec 32)} {m : Mapping} {t : ℕ}
  {op : ListOp UIntPtr Unit (BitVec 32)}

/-- The heap holds lists, and nodes at finitely many addresses. -/
structure HeapOk (m : Mapping) (h : NodeHeap UIntPtr Unit (BitVec 32)) : Prop where
  chains : ∃ C, Represents (poolTraits id) h C
  accessible : h.accessible = accessibleIn m
  finite : ∃ S : List UIntPtr, ∀ q, (h.phase q).isSome → q ∈ S

/-- A call that is answered with the addresses of `S` leaves cells there, or where they were. -/
theorem HeapOk.perform (hh : HeapOk m h) {c : Call UIntPtr Unit (BitVec 32)}
    {r : Except Failure Unit} {C : Chains UIntPtr Unit (BitVec 32)}
    (hrun : h.perform (poolTraits id) c = some (r, heap))
    (hP : Represents (poolTraits id) heap C) :
    HeapOk m heap ∧
      ∀ q, (heap.phase q).isSome → some q ∈ c.allocations ∨ (h.phase q).isSome := by
  obtain ⟨S, hS⟩ := hh.finite
  let S' := c.allocations.filterMap id ++ S.filter fun q => (h.phase q).isSome
  have hstart : Within S' (accessibleIn m) (h.answering c) := by
    refine ⟨fun q hq => ?_, fun q hq => ?_, hh.accessible⟩
    · exact List.mem_append_left _ (List.mem_filterMap.mpr ⟨some q, hq, rfl⟩)
    · exact List.mem_append_right _ (List.mem_filter.mpr ⟨hS q hq, hq⟩)
  have hend := closed_within.perform c.op _ _ _ hstart hrun
  refine ⟨⟨⟨C, hP⟩, hend.2.2, S', hend.2.1⟩, fun q hq => ?_⟩
  rcases List.mem_append.mp (hend.2.1 q hq) with hq | hq
  · obtain ⟨x, hx, hxq⟩ := List.mem_filterMap.mp hq
    exact Or.inl (hxq ▸ hx)
  · exact Or.inr (List.mem_filter.mp hq).2

/-- A list is there if it has a sequence. -/
theorem HeapOk.lists (hh : HeapOk m h) (t : ℕ) :
    (h.lists t).isSome = (h.sequences t).isSome := by
  obtain ⟨C, hR⟩ := hh.chains
  exact hR.lists_isSome t

/-- A push of a node at a fresh address. -/
theorem HeapOk.push (hh : HeapOk m h) {l : List (BitVec 32)} {v : BitVec 32} {p : UIntPtr}
    (hlist : h.sequences t = some l) (hfree : h.phase p = none) (hp : accessibleIn m p = true) :
    ∃ heap, h.perform (poolTraits id) ⟨.pushFront t (.value v) t, [some p], [true]⟩ =
        some (.ok (), heap) ∧ HeapOk m heap ∧
      (∀ q, (heap.phase q).isSome → q = p ∨ (h.phase q).isSome) ∧
      heap.sequences = Function.update h.sequences t (some (v :: l)) := by
  obtain ⟨C, hR⟩ := hh.chains
  have hcell : h.cells p = none := Option.map_eq_none_iff.mp hfree
  have hreturn : h.mayReturn [some p] = true := by
    have hacc : h.accessible p = true := by rw [hh.accessible]; exact hp
    simp [NodeHeap.mayReturn, hcell, hacc]
  obtain ⟨heap, C', hrun, hP, hsequences⟩ := hR.push (lawful_poolTraits id) v hlist hreturn
  obtain ⟨hheap, hcells⟩ := hh.perform hrun hP.represents
  refine ⟨heap, hrun, hheap, fun q hq => ?_, hsequences⟩
  refine (hcells q hq).imp_left fun hq => ?_
  exact Option.some.inj (List.mem_singleton.mp hq)

/-- A call that needs no node. -/
theorem HeapOk.call (hh : HeapOk m h) (hop : h.acceptsOp op = true) (hneeds : h.needs op = 0)
    (hpop : ∀ i, op ≠ .popFront i) :
    ∃ heap, h.perform (poolTraits id) ⟨op, [], []⟩ = some (.ok (), heap) ∧ HeapOk m heap ∧
      (∀ q, (heap.phase q).isSome → (h.phase q).isSome) ∧
      heap.sequences = h.sequences.apply id (h.meaning op) := by
  obtain ⟨C, hR⟩ := hh.chains
  obtain ⟨heap, C', hrun, hP, hsequences⟩ := hR.call (lawful_poolTraits id) hop hneeds hpop
  obtain ⟨hheap, hcells⟩ := hh.perform hrun hP.represents
  exact ⟨heap, hrun, hheap, fun q hq => (hcells q hq).resolve_left List.not_mem_nil, hsequences⟩

end Calls

/-! ## What the pool has handed out -/

/-- The block of an `allocate` that has taken effect. -/
def handedOut (c : Commit MutexOp MutexResult) : Block :=
  match c.op, c.result with
  | .allocate bytes alignment, .address p => ⟨p, bytes, alignment⟩
  | _, _ => ⟨0, 0, 0⟩

/-- How many nodes thread `t` has been given. -/
def given (log : List (Commit MutexOp MutexResult)) (t : ℕ) : ℕ :=
  log.countP fun c => c.thread = t

abbrev AtomicPool := Atomic MutexState MutexOp MutexResult

variable {m : Mapping} {layout : NodeLayout} {page : ℕ} {a : AtomicPool}

/-- The nodes handed out lie one below the other, from the mapping end on, above the guard. -/
structure PoolOk (m : Mapping) (layout : NodeLayout) (a : AtomicPool) : Prop where
  run : PoolRun.Ok m ⟨a.shared.1.pool, a.log.map handedOut, none⟩
  cursor : a.shared.1.pool.cursor.toNat + a.log.length * layout.nodeSize.toNat = m.hi
  nodes : ∀ c ∈ a.log, c.op = .allocate layout.nodeSize layout.nodeAlignment ∧
    ∃ p, c.result = .address p

theorem PoolOk.sizes (h : PoolOk m layout a) :
    ∀ b ∈ a.log.map handedOut, b.bytes = layout.nodeSize ∧ b.alignment = layout.nodeAlignment := by
  intro b hb
  obtain ⟨c, hc, rfl⟩ := List.mem_map.mp hb
  obtain ⟨hop, p, hp⟩ := h.nodes c hc
  simp only [handedOut, hop, hp, and_self]

/-- The pool as one under lists that have not been used. -/
theorem PoolOk.lists (h : PoolOk m layout a) :
    PoolLists.Ok (T := BitVec 32) m layout id
      ⟨a.shared.1.pool, NodeHeap.start (accessibleIn m), a.log.map handedOut, none⟩ where
  run := h.run
  sizes := h.sizes
  cursor _ := by
    rw [List.length_map]
    exact h.cursor
  full _ hb := by cases hb
  chains _ := ⟨_, represents_start _ _⟩
  within _ := ⟨fun _ hp => (by cases hp), fun _ hp => (by cases hp), rfl⟩

/-- One more node, if there is room for it. -/
theorem PoolOk.commit (hm : m.Guards page layout.nodeSize.toNat)
    (hpage : layout.nodeAlignment.toNat ≤ page) (h : PoolOk m layout a) (t : ℕ)
    (hroom : (a.log.length + 1) * layout.nodeSize.toNat ≤ m.hi - m.guardEnd) :
    ∃ p pool, a.shared.1.allocate layout.nodeSize layout.nodeAlignment = (p, pool) ∧
      accessibleIn m p = true ∧ (∀ c ∈ a.log, c.result ≠ .address p) ∧
      PoolOk m layout { a with
        shared := (pool, a.shared.2)
        log := ⟨t, .allocate layout.nodeSize layout.nodeAlignment, .address p⟩ :: a.log } := by
  have hs := h.lists
  have hlo : (a.shared.1.pool.allocate layout.nodeSize layout.nodeAlignment).1.toNat +
      (a.log.length + 1) * layout.nodeSize.toNat = m.hi := by
    have htake := (hs.take hm hpage rfl).1
    rw [PoolLists.take_eq, List.length_map] at htake
    exact htake
  have hne := hs.take_ne hm hpage rfl
  rw [PoolLists.take_eq] at hne
  have hend := hm.guardEnd_le_hi
  have hpos := layout.size_pos
  have hlength : (a.log.length + 1) * layout.nodeSize.toNat =
      a.log.length * layout.nodeSize.toNat + layout.nodeSize.toNat := Nat.succ_mul _ _
  have habove : m.guardEnd ≤
      (a.shared.1.pool.allocate layout.nodeSize layout.nodeAlignment).1.toNat := by
    omega
  refine ⟨_, _, rfl, ?_, fun c hc hresult => ?_, ?_, ?_, List.forall_mem_cons.mpr
    ⟨⟨rfl, _, rfl⟩, h.nodes⟩⟩
  · rw [accessibleIn, decide_eq_true_eq]
    refine ⟨habove, ?_⟩
    change (a.shared.1.pool.allocate layout.nodeSize layout.nodeAlignment).1.toNat < _
    omega
  · refine hne (handedOut c) (List.mem_map_of_mem hc) ?_
    simp only [handedOut, (h.nodes c hc).1, hresult]
    rfl
  · refine PoolRun.next_ok hm h.run (PoolLists.within_of_layout hpage) ?_
    simp only [PoolRun.next]
    rw [if_neg fun hguard => absurd hguard.2 (not_lt.mpr habove)]
    rfl
  · change (a.shared.1.pool.allocate layout.nodeSize layout.nodeAlignment).1.toNat +
      (a.log.length + 1) * _ = _
    exact hlo

/-! ## The invariant -/

theorem given_cons (c : Commit MutexOp MutexResult) (log : List (Commit MutexOp MutexResult))
    (t : ℕ) : given (c :: log) t = given log t + if c.thread = t then 1 else 0 := by
  simp only [given, List.countP_cons, decide_eq_true_eq]

/-- Every node has been given to one of the threads. -/
theorem length_eq_sum_given {T : ℕ} {log : List (Commit MutexOp MutexResult)}
    (h : ∀ t, T ≤ t → given log t = 0) :
    log.length = ∑ t ∈ Finset.range T, given log t := by
  induction log with
  | nil => simp [given]
  | cons c log ih =>
    have hlog : ∀ t, T ≤ t → given log t = 0 := by
      intro t ht
      have hsum := h t ht
      rw [given_cons] at hsum
      omega
    have hthread : c.thread < T := by
      by_contra hge
      have hsum := h c.thread (by omega)
      rw [given_cons, if_pos rfl] at hsum
      omega
    simp only [given_cons]
    rw [List.length_cons, ih hlog, Finset.sum_add_distrib, Finset.sum_ite_eq,
      if_pos (Finset.mem_range.mpr hthread)]

/-- The place of thread `t` among `threads` that push `n` nodes each, with its list, its place at
the pool and the number of nodes that it has been given. -/
def FillPc.Fits (layout : NodeLayout) (n threads t : ℕ) (list : Option (List (BitVec 32)))
    (place : AtomicPlace MutexOp MutexResult) (k : ℕ) : FillPc → Prop
  | .begin => t < threads ∧ list = none ∧ place = .outside ∧ k = 0
  | .loop i => t < threads ∧ i ≤ n ∧ list = some (filled i) ∧ place = .outside ∧ k = i
  | .allocating i => t < threads ∧ i < n ∧ list = some (filled i) ∧
    ((place = .called (.allocate layout.nodeSize layout.nodeAlignment) ∧ k = i) ∨
      ∃ p, place = .done (.allocate layout.nodeSize layout.nodeAlignment) (.address p) ∧
        k = i + 1)
  | .linking i _ => t < threads ∧ i < n ∧ list = some (filled i) ∧ place = .outside ∧ k = i + 1
  | .leaving => t < threads ∧ list = some [] ∧ place = .outside ∧ k = n
  | .finished => list = none ∧ place = .outside ∧ k = if t < threads then n else 0

/-- A thread at `pc` has been given `p` and has not yet made a node of it. -/
def FillPc.Owes (place : AtomicPlace MutexOp MutexResult) (p : UIntPtr) : FillPc → Prop
  | .allocating _ => ∃ op, place = .done op (.address p)
  | .linking _ q => q = p
  | _ => False

theorem FillPc.Fits.le {n threads t k : ℕ} {list : Option (List (BitVec 32))}
    {place : AtomicPlace MutexOp MutexResult} {pc : FillPc}
    (h : pc.Fits layout n threads t list place k) : k ≤ n ∧ (threads ≤ t → k = 0) := by
  cases pc with
  | begin => exact ⟨by rw [h.2.2.2]; exact Nat.zero_le n, fun ht => absurd h.1 (by omega)⟩
  | loop i => exact ⟨by rw [h.2.2.2.2]; exact h.2.1, fun ht => absurd h.1 (by omega)⟩
  | allocating i =>
    obtain ⟨ht, hi, -, ⟨-, hk⟩ | ⟨p, -, hk⟩⟩ := h
    · exact ⟨by omega, fun hle => absurd ht (by omega)⟩
    · exact ⟨by omega, fun hle => absurd ht (by omega)⟩
  | linking i p =>
    obtain ⟨ht, hi, -, -, hk⟩ := h
    exact ⟨by omega, fun hle => absurd ht (by omega)⟩
  | leaving => exact ⟨h.2.2.2.le, fun ht => absurd h.1 (by omega)⟩
  | finished =>
    obtain ⟨-, -, hk⟩ := h
    constructor
    · rw [hk]
      split
      · exact le_rfl
      · exact Nat.zero_le n
    · intro hle
      rw [hk, if_neg (by omega)]

theorem FillPc.Fits.list_eq {n threads t k : ℕ} {list : Option (List (BitVec 32))}
    {place : AtomicPlace MutexOp MutexResult} {pc : FillPc}
    (h : pc.Fits layout n threads t list place k) : list = pc.pushed.map filled := by
  cases pc with
  | begin | leaving => exact h.2.1
  | loop i | allocating i | linking i p => exact h.2.2.1
  | finished => exact h.1

namespace SharedFill

/-- What holds in every state of the benchmark, if the pool is the atomic object `a`. -/
structure Ok (os : Os) (m : Mapping) (layout : NodeLayout) (n threads : ℕ) (s : SharedFill)
    (a : AtomicPool) : Prop where
  simulates : Simulates (mutexBody os) (mutexEffect os) s.monitor a
  fault : s.fault = false
  pool : PoolOk m layout a
  heap : HeapOk m s.heap
  cells : ∀ q, (s.heap.phase q).isSome → ∃ c ∈ a.log, c.result = .address q
  fits : ∀ t, (s.threads t).Fits layout n threads t (s.heap.sequences t) (a.threads t)
    (given a.log t)
  owed : ∀ t p, (s.threads t).Owes (a.threads t) p →
    accessibleIn m p = true ∧ s.heap.phase p = none ∧ ∃ c ∈ a.log, c.result = .address p
  apart : ∀ t u p, (s.threads t).Owes (a.threads t) p → (s.threads u).Owes (a.threads u) p → t = u

variable {os : Os} {n threads : ℕ} {s s' : SharedFill} {a' : AtomicPool} {t : ℕ}

/-- A step of thread `t` that is given no node. -/
theorem Ok.step (h : s.Ok os m layout n threads a)
    (hsimulates : Simulates (mutexBody os) (mutexEffect os) s'.monitor a')
    (hfault : s'.fault = false) (hshared : a'.shared = a.shared) (hlog : a'.log = a.log)
    (hheap : HeapOk m s'.heap)
    (hothers : ∀ u, u ≠ t → s'.threads u = s.threads u ∧
      s'.heap.sequences u = s.heap.sequences u ∧ a'.threads u = a.threads u)
    (hfits : (s'.threads t).Fits layout n threads t (s'.heap.sequences t) (a'.threads t)
      (given a.log t))
    (howes : ∀ p, (s'.threads t).Owes (a'.threads t) p → (s.threads t).Owes (a.threads t) p)
    (hcells : ∀ q, (s'.heap.phase q).isSome → (s.heap.phase q).isSome ∨
      ((s.threads t).Owes (a.threads t) q ∧ ¬ (s'.threads t).Owes (a'.threads t) q)) :
    s'.Ok os m layout n threads a' := by
  have howes' : ∀ u p, (s'.threads u).Owes (a'.threads u) p →
      (s.threads u).Owes (a.threads u) p := by
    intro u p hp
    rcases eq_or_ne u t with rfl | hne
    · exact howes p hp
    · obtain ⟨hthread, -, hplace⟩ := hothers u hne
      rwa [hthread, hplace] at hp
  refine ⟨hsimulates, hfault, ?_, hheap, fun q hq => ?_, fun u => ?_, fun u p hp => ?_,
    fun u v p hu hv => h.apart u v p (howes' u p hu) (howes' v p hv)⟩
  · exact ⟨by rw [hshared, hlog]; exact h.pool.run, by rw [hshared, hlog]; exact h.pool.cursor,
      by rw [hlog]; exact h.pool.nodes⟩
  · rw [hlog]
    rcases hcells q hq with hq | ⟨hq, -⟩
    · exact h.cells q hq
    · exact (h.owed t q hq).2.2
  · rcases eq_or_ne u t with rfl | hne
    · rw [hlog]
      exact hfits
    · obtain ⟨hthread, hlist, hplace⟩ := hothers u hne
      rw [hthread, hlist, hplace, hlog]
      exact h.fits u
  · have hp' := howes' u p hp
    obtain ⟨haccessible, hfree, hmem⟩ := h.owed u p hp'
    refine ⟨haccessible, ?_, hlog ▸ hmem⟩
    by_contra hsome
    rcases hcells p (Option.isSome_iff_ne_none.mpr hsome) with hq | ⟨hq, hnot⟩
    · rw [hfree] at hq
      cases hq
    · -- the node is the one that thread `t` has made
      obtain rfl : u = t := h.apart u t p hp' hq
      exact hnot hp

/-- There is room for the node that thread `t` has not been given yet. -/
theorem Ok.room (h : s.Ok os m layout n threads a)
    (hroom : n * threads * layout.nodeSize.toNat ≤ m.hi - m.guardEnd) (ht : t < threads)
    (hgiven : given a.log t < n) :
    (a.log.length + 1) * layout.nodeSize.toNat ≤ m.hi - m.guardEnd := by
  have hsum := length_eq_sum_given fun u hu => (h.fits u).le.2 hu
  have hlt : ∑ u ∈ Finset.range threads, given a.log u < ∑ _u ∈ Finset.range threads, n :=
    Finset.sum_lt_sum (fun u _ => (h.fits u).le.1) ⟨t, Finset.mem_range.mpr ht, hgiven⟩
  rw [Finset.sum_const, Finset.card_range, smul_eq_mul, Nat.mul_comm] at hlt
  exact (Nat.mul_le_mul_right _ (by omega)).trans hroom

/-- A thread gets its node. -/
theorem Ok.commit (hm : m.Guards page layout.nodeSize.toNat)
    (hpage : layout.nodeAlignment.toNat ≤ page)
    (hroom : n * threads * layout.nodeSize.toNat ≤ m.hi - m.guardEnd)
    (h : s.Ok os m layout n threads a)
    {monitor : Monitor MutexState MutexOp MutexPlace MutexResult}
    (hsimulates : Simulates (mutexBody os) (mutexEffect os) monitor a')
    (hcommit : Atomic.next (mutexEffect os) a (.commit t) = some a') :
    ({ s with monitor := monitor } : SharedFill).Ok os m layout n threads a' := by
  obtain ⟨op, hplace, rfl⟩ := Atomic.commit_inv hcommit
  have hfits := h.fits t
  rw [hplace] at hfits
  cases hpc : s.threads t with
  | allocating i =>
    rw [hpc] at hfits
    obtain ⟨ht, hi, hlist, ⟨hop, hk⟩ | ⟨p, hdone, -⟩⟩ := hfits
    swap
    · cases hdone
    obtain rfl := AtomicPlace.called.inj hop
    obtain ⟨p, pool, halloc, haccessible, hfresh, hpool⟩ :=
      h.pool.commit hm hpage t (h.room hroom ht (by omega))
    have heffect : mutexEffect os a.shared (.allocate layout.nodeSize layout.nodeAlignment) =
        ((pool, a.shared.2), .address p) := by
      simp only [mutexEffect, halloc]
    rw [heffect] at hsimulates ⊢
    have hnew : s.heap.phase p = none := by
      by_contra hsome
      obtain ⟨c, hc, hresult⟩ := h.cells p (Option.isSome_iff_ne_none.mpr hsome)
      exact hfresh c hc hresult
    have hself : ∀ q, (s.threads t).Owes (.done (.allocate layout.nodeSize layout.nodeAlignment)
        (.address p)) q → q = p := by
      rw [hpc]
      rintro q ⟨op, hdone⟩
      exact (MutexResult.address.inj (AtomicPlace.done.inj hdone).2).symm
    have hother : ∀ u, u ≠ t → (a.goto t (.done (.allocate layout.nodeSize layout.nodeAlignment)
        (.address p))).threads u = a.threads u := fun u hne => Function.update_of_ne hne ..
    have hplace' : (a.goto t (.done (.allocate layout.nodeSize layout.nodeAlignment)
        (.address p))).threads t = _ := Function.update_self ..
    refine ⟨hsimulates, h.fault, ⟨hpool.run, hpool.cursor, hpool.nodes⟩, h.heap, fun q hq => ?_,
      fun u => ?_, fun u q hq => ?_, fun u v q hu hv => ?_⟩
    · obtain ⟨c, hc, hresult⟩ := h.cells q hq
      exact ⟨c, List.mem_cons_of_mem _ hc, hresult⟩
    · dsimp only
      rw [given_cons]
      rcases eq_or_ne u t with rfl | hne
      · rw [if_pos rfl, hplace', hpc]
        exact ⟨ht, hi, hlist, Or.inr ⟨p, rfl, by rw [hk]⟩⟩
      · rw [if_neg hne.symm, hother u hne]
        exact h.fits u
    · dsimp only at hq ⊢
      rcases eq_or_ne u t with rfl | hne
      · rw [hplace'] at hq
        obtain rfl := hself q hq
        exact ⟨haccessible, hnew, _, List.mem_cons_self, rfl⟩
      · rw [hother u hne] at hq
        obtain ⟨hacc, hfree, c, hc, hresult⟩ := h.owed u q hq
        exact ⟨hacc, hfree, c, List.mem_cons_of_mem _ hc, hresult⟩
    · dsimp only at hu hv
      have hnone : ∀ u, u ≠ t → ¬ (s.threads u).Owes (a.threads u) p := by
        intro u _ hq
        obtain ⟨-, -, c, hc, hresult⟩ := h.owed u p hq
        exact hfresh c hc hresult
      rcases eq_or_ne u t with rfl | hne <;> rcases eq_or_ne v u with rfl | hne'
      · rfl
      · rw [hplace'] at hu
        rw [hother v hne'] at hv
        obtain rfl := hself q hu
        exact absurd hv (hnone v hne')
      · rfl
      · rw [hother u hne] at hu
        rcases eq_or_ne v t with rfl | hne''
        · rw [hplace'] at hv
          obtain rfl := hself q hv
          exact absurd hu (hnone u hne)
        · rw [hother v hne''] at hv
          exact h.apart u v q hu hv
  | _ =>
    rw [hpc] at hfits
    simp [FillPc.Fits] at hfits

/-- A step of a thread in a member function of the pool. -/
theorem Ok.poolStep (hm : m.Guards page layout.nodeSize.toNat)
    (hpage : layout.nodeAlignment.toNat ≤ page)
    (hroom : n * threads * layout.nodeSize.toNat ≤ m.hi - m.guardEnd)
    (h : s.Ok os m layout n threads a) {l : Move MutexOp MutexResult} (hl : l.event = none)
    {monitor : Monitor MutexState MutexOp MutexPlace MutexResult}
    (hnext : s.monitor.next (mutexBody os) l = some monitor) :
    ∃ a', ({ s with monitor := monitor } : SharedFill).Ok os m layout n threads a' := by
  obtain ⟨a', hsimulates, ⟨rfl, -⟩ | ⟨l', hl', hevent⟩⟩ :=
    h.simulates.next (mutexBody_computes os) hnext
  · exact ⟨a', hsimulates, h.fault, h.pool, h.heap, h.cells, h.fits, h.owed, h.apart⟩
  · rw [hl] at hevent
    cases l' with
    | commit t => exact ⟨a', h.commit hm hpage hroom hsimulates hl'⟩
    | call t op => cases hevent
    | ret t r => cases hevent

/-- A call of thread `t` on its list that needs no node. -/
theorem Ok.calls (h : s.Ok os m layout n threads a) {op : ListOp UIntPtr Unit (BitVec 32)}
    (pc : FillPc) (list : Option (List (BitVec 32))) (hop : s.heap.acceptsOp op = true)
    (hneeds : s.heap.needs op = 0) (hpop : ∀ i, op ≠ .popFront i)
    (hmeaning : s.heap.sequences.apply id (s.heap.meaning op) =
      Function.update s.heap.sequences t list)
    (hfits : pc.Fits layout n threads t list (a.threads t) (given a.log t))
    (howes : ∀ p, ¬ pc.Owes (a.threads t) p) :
    ∃ s', s.calls t op pc = some s' ∧ s'.Ok os m layout n threads a ∧ s'.threads t = pc ∧
      s'.monitor = s.monitor ∧ ∀ u, u ≠ t → s'.threads u = s.threads u := by
  obtain ⟨heap, hrun, hheap, hcells, hsequences⟩ := h.heap.call hop hneeds hpop
  rw [hmeaning] at hsequences
  refine ⟨{ s with heap := heap, threads := Function.update s.threads t pc }, ?_, ?_,
    Function.update_self .., rfl, fun u hne => Function.update_of_ne hne ..⟩
  · simp only [SharedFill.calls, hrun]
  · refine h.step (t := t) h.simulates h.fault rfl rfl hheap (fun u hne => ?_) ?_ (fun p hp => ?_)
      fun q hq => Or.inl (hcells q hq)
    · dsimp only
      rw [Function.update_of_ne hne, hsequences, Function.update_of_ne hne]
      exact ⟨rfl, rfl, rfl⟩
    · dsimp only
      rw [Function.update_self, hsequences, Function.update_self]
      exact hfits
    · dsimp only at hp
      rw [Function.update_self] at hp
      exact absurd hp (howes p)

/-- A thread calls `allocate`, or returns from it. -/
theorem Ok.moves (h : s.Ok os m layout n threads a) {l : Move MutexOp MutexResult}
    {monitor : Monitor MutexState MutexOp MutexPlace MutexResult} (pc : FillPc)
    (l' : AtomicMove MutexOp MutexResult) (place : AtomicPlace MutexOp MutexResult)
    (hl' : l.event = l'.event) (hcommit : l.event ≠ none)
    (hnext : s.monitor.next (mutexBody os) l = some monitor)
    (hplace : ∀ a', Atomic.next (mutexEffect os) a l' = some a' → a' = a.goto t place)
    (hfits : pc.Fits layout n threads t (s.heap.sequences t) place (given a.log t))
    (howes : ∀ p, pc.Owes place p → (s.threads t).Owes (a.threads t) p) :
    ({ s with monitor := monitor, threads := Function.update s.threads t pc } : SharedFill).Ok
      os m layout n threads (a.goto t place) := by
  obtain ⟨a', hsimulates, ⟨-, hnone⟩ | ⟨l'', hnext', hevent⟩⟩ :=
    h.simulates.next (mutexBody_computes os) hnext
  · exact absurd hnone hcommit
  · have hsame : l'' = l' := by
      rw [hl'] at hevent hcommit
      cases l'' <;> cases l' <;> simp_all [AtomicMove.event]
    subst hsame
    obtain rfl := hplace a' hnext'
    refine h.step (t := t) hsimulates h.fault rfl rfl h.heap (fun u hne => ?_) ?_ (fun p hp => ?_)
      fun q hq => Or.inl hq
    · dsimp only
      rw [Function.update_of_ne hne]
      exact ⟨rfl, rfl, Function.update_of_ne hne ..⟩
    · dsimp only
      rw [Function.update_self]
      have hself : (a.goto t place).threads t = place := Function.update_self ..
      rw [hself]
      exact hfits
    · dsimp only at hp
      have hself : (a.goto t place).threads t = place := Function.update_self ..
      rw [Function.update_self, hself] at hp
      exact howes p hp

/-- The rest of `push_front`. -/
theorem Ok.link (h : s.Ok os m layout n threads a) {i : ℕ} {p : UIntPtr}
    (hpc : s.threads t = .linking i p) :
    ∃ heap, s.heap.perform (poolTraits id)
        ⟨.pushFront t (.value (BitVec.ofNat 32 i)) t, [some p], [true]⟩ = some (.ok (), heap) ∧
      ({ s with heap := heap, threads := Function.update s.threads t (.loop (i + 1)) } :
        SharedFill).Ok os m layout n threads a := by
  have hfits := h.fits t
  rw [hpc] at hfits
  obtain ⟨ht, hi, hlist, hplace, hk⟩ := hfits
  have howes : (s.threads t).Owes (a.threads t) p := by
    rw [hpc]
    rfl
  obtain ⟨haccessible, hfree, -⟩ := h.owed t p howes
  obtain ⟨heap, hrun, hheap, hcells, hsequences⟩ := h.heap.push hlist hfree haccessible
    (v := BitVec.ofNat 32 i)
  refine ⟨heap, hrun, h.step (t := t) h.simulates h.fault rfl rfl hheap (fun u hne => ?_) ?_
    (fun q hq => ?_) fun q hq => ?_⟩
  · dsimp only
    rw [Function.update_of_ne hne, hsequences, Function.update_of_ne hne]
    exact ⟨rfl, rfl, rfl⟩
  · dsimp only
    rw [Function.update_self, hsequences, Function.update_self]
    exact ⟨ht, hi, rfl, hplace, hk⟩
  · dsimp only at hq
    rw [Function.update_self] at hq
    exact absurd hq id
  · rcases hcells q hq with rfl | hq
    · refine Or.inr ⟨howes, ?_⟩
      dsimp only
      rw [Function.update_self]
      exact id
    · exact Or.inl hq

/-! ## The steps that are left -/

/-- The steps of a member function of the pool that are left to a thread, its return included. -/
def poolSteps : Place MutexOp MutexPlace MutexResult → ℕ
  | .outside => 0
  | .waiting (.allocate _ _) => 6
  | .waiting .usableBytes => 4
  | .waiting _ => 5
  | .inside _ (.loadCursor _ _) => 5
  | .inside _ (.storeCursor _) | .inside _ .loadMappingEnd | .inside _ .releaseStorage
  | .inside _ .loadUsedCursor => 4
  | .inside _ _ => 3
  | .leaving _ _ => 2
  | .returning _ _ => 1

/-- The steps that are left to a thread. -/
def stepsLeft (n : ℕ) (place : Place MutexOp MutexPlace MutexResult) : FillPc → ℕ
  | .begin => 8 * n + 3
  | .loop i => 8 * (n - i) + 2
  | .allocating i => 8 * (n - (i + 1)) + 3 + poolSteps place
  | .linking i _ => 8 * (n - (i + 1)) + 3
  | .leaving => 1
  | .finished => 0

/-- The steps that are left to the threads together. -/
def potential (n threads : ℕ) (s : SharedFill) : ℕ :=
  ∑ t ∈ Finset.range threads, stepsLeft n (s.monitor.threads t) (s.threads t)

theorem poolSteps_lock {monitor monitor' : Monitor MutexState MutexOp MutexPlace MutexResult}
    (hnext : monitor.next (mutexBody os) (.lock t) = some monitor') :
    (monitor.threads t).atomic ≠ .outside ∧
      poolSteps (monitor'.threads t) + 1 = poolSteps (monitor.threads t) ∧
      ∀ u, u ≠ t → monitor'.threads u = monitor.threads u := by
  simp only [Monitor.next] at hnext
  split at hnext <;> cases hnext
  next op hplace _ =>
  refine ⟨by rw [hplace]; exact fun heq => (by cases heq), ?_,
    fun u hne => Function.update_of_ne hne ..⟩
  simp only [Monitor.goto, Function.update_self, hplace]
  cases op <;> rfl

theorem poolSteps_body {monitor monitor' : Monitor MutexState MutexOp MutexPlace MutexResult}
    (hnext : monitor.next (mutexBody os) (.step t) = some monitor') :
    (monitor.threads t).atomic ≠ .outside ∧
      poolSteps (monitor'.threads t) + 1 = poolSteps (monitor.threads t) ∧
      ∀ u, u ≠ t → monitor'.threads u = monitor.threads u := by
  simp only [Monitor.next] at hnext
  split at hnext
  · next op l hplace =>
    rw [hplace]
    refine ⟨fun heq => (by cases heq), ?_, ?_⟩
    · cases l <;> (cases hnext; simp only [Monitor.goto, Function.update_self]; rfl)
    · intro u hne
      cases l <;> (cases hnext; exact Function.update_of_ne hne ..)
  · cases hnext

theorem poolSteps_unlock {monitor monitor' : Monitor MutexState MutexOp MutexPlace MutexResult}
    (hnext : monitor.next (mutexBody os) (.unlock t) = some monitor') :
    (monitor.threads t).atomic ≠ .outside ∧
      poolSteps (monitor'.threads t) + 1 = poolSteps (monitor.threads t) ∧
      ∀ u, u ≠ t → monitor'.threads u = monitor.threads u := by
  simp only [Monitor.next] at hnext
  split at hnext <;> cases hnext
  next op r hplace =>
  refine ⟨by rw [hplace]; exact fun heq => (by cases heq), ?_,
    fun u hne => Function.update_of_ne hne ..⟩
  simp only [Monitor.goto, Function.update_self, hplace]
  rfl

/-- A step of thread `t` alone lowers the steps that are left. -/
theorem potential_step (ht : t < threads)
    (hothers : ∀ u, u ≠ t → s'.threads u = s.threads u ∧
      s'.monitor.threads u = s.monitor.threads u)
    (hself : stepsLeft n (s'.monitor.threads t) (s'.threads t) + 1 =
      stepsLeft n (s.monitor.threads t) (s.threads t)) :
    potential n threads s' + 1 ≤ potential n threads s := by
  refine sum_range_step ht (fun u _ hne => ?_) hself.le (b := 0)
  rw [(hothers u hne).1, (hothers u hne).2]

/-- A thread in a member function of the pool is in `allocate`. -/
theorem Ok.allocating (h : s.Ok os m layout n threads a)
    (hplace : (s.monitor.threads t).atomic ≠ .outside) :
    t < threads ∧ ∃ i, s.threads t = .allocating i := by
  have hfits := h.fits t
  rw [h.simulates.threads] at hfits
  cases hpc : s.threads t with
  | allocating i =>
    rw [hpc] at hfits
    exact ⟨hfits.1, i, rfl⟩
  | begin | loop i | linking i p | leaving =>
    rw [hpc] at hfits
    simp only [FillPc.Fits] at hfits
    exact absurd (by tauto) hplace
  | finished =>
    rw [hpc] at hfits
    exact absurd hfits.2.1 hplace

/-! ## The steps of a thread in its own code -/

/-- Thread `t` can step in its own code; the step keeps the invariant, and one step less is left. -/
def Steps (os : Os) (m : Mapping) (layout : NodeLayout) (nodeCount : SizeT) (threads : ℕ)
    (s : SharedFill) (t : ℕ) : Prop :=
  ∃ s' a', s.threadStep os layout nodeCount t = some s' ∧
    s'.Ok os m layout nodeCount.toNat threads a' ∧
    potential nodeCount.toNat threads s' + 1 ≤ potential nodeCount.toNat threads s

variable {nodeCount : SizeT}

/-- A step that is a call of the thread on its list. -/
theorem Ok.steps_calls (h : s.Ok os m layout nodeCount.toNat threads a) (ht : t < threads)
    {op : ListOp UIntPtr Unit (BitVec 32)} (pc : FillPc) (list : Option (List (BitVec 32)))
    (hstep : s.threadStep os layout nodeCount t = s.calls t op pc)
    (hop : s.heap.acceptsOp op = true) (hneeds : s.heap.needs op = 0)
    (hpop : ∀ i, op ≠ .popFront i)
    (hmeaning : s.heap.sequences.apply id (s.heap.meaning op) =
      Function.update s.heap.sequences t list)
    (hfits : pc.Fits layout nodeCount.toNat threads t list (a.threads t) (given a.log t))
    (howes : ∀ p, ¬ pc.Owes (a.threads t) p)
    (hleft : stepsLeft nodeCount.toNat (s.monitor.threads t) pc + 1 =
      stepsLeft nodeCount.toNat (s.monitor.threads t) (s.threads t)) :
    Steps os m layout nodeCount threads s t := by
  obtain ⟨s', hcalls, hok, hpc, hmonitor, hothers⟩ :=
    h.calls pc list hop hneeds hpop hmeaning hfits howes
  refine ⟨s', a, hstep.trans hcalls, hok,
    potential_step ht (fun u hne => ⟨hothers u hne, by rw [hmonitor]⟩) ?_⟩
  rw [hpc, hmonitor]
  exact hleft

theorem Ok.steps_begin (h : s.Ok os m layout nodeCount.toNat threads a)
    (hthread : s.threads t = .begin) : Steps os m layout nodeCount threads s t := by
  have hfits := h.fits t
  rw [hthread] at hfits
  obtain ⟨ht, hlist, hplace, hk⟩ := hfits
  have hop : s.heap.acceptsOp (.construct t ()) = true := by
    simp only [NodeHeap.acceptsOp, Option.isNone_iff_eq_none]
    have hsome := h.heap.lists t
    rw [hlist] at hsome
    exact Option.isSome_eq_false_iff.mp hsome |> Option.isNone_iff_eq_none.mp
  refine h.steps_calls ht (.loop 0) (some []) ?_ hop rfl (fun _ h => by cases h) rfl
    ⟨ht, Nat.zero_le _, rfl, hplace, hk⟩ (fun _ => id) ?_
  · simp only [SharedFill.threadStep, hthread]
  · rw [hthread]
    rfl

/-- The end of the loop: the nodes are given up. -/
theorem Ok.steps_release (h : s.Ok os m layout nodeCount.toNat threads a)
    (hthread : s.threads t = .loop nodeCount.toNat) :
    Steps os m layout nodeCount threads s t := by
  have hfits := h.fits t
  rw [hthread] at hfits
  obtain ⟨ht, -, hlist, hplace, hk⟩ := hfits
  have hop : s.heap.acceptsOp (.releaseNodes t) = true := by
    have hsome := h.heap.lists t
    rw [hlist] at hsome
    exact hsome
  refine h.steps_calls ht .leaving (some []) ?_ hop rfl (fun _ h => by cases h) rfl
    ⟨ht, rfl, hplace, hk⟩ (fun _ => id) ?_
  · simp only [SharedFill.threadStep, hthread, if_true]
  · rw [hthread]
    simp only [stepsLeft]
    omega

/-- The call of `allocate`. -/
theorem Ok.steps_call (h : s.Ok os m layout nodeCount.toNat threads a) {i : ℕ}
    (hthread : s.threads t = .loop i) (hlast : i ≠ nodeCount.toNat) :
    Steps os m layout nodeCount threads s t := by
  have hfits := h.fits t
  rw [hthread] at hfits
  obtain ⟨ht, hi, hlist, hplace, hk⟩ := hfits
  have houtside : s.monitor.threads t = .outside := by
    rw [h.simulates.threads] at hplace
    cases hm : s.monitor.threads t <;> rw [hm] at hplace <;> first | rfl | cases hplace
  let op : MutexOp := .allocate layout.nodeSize layout.nodeAlignment
  have hnext : s.monitor.next (mutexBody os) (.call t op) =
      some (s.monitor.goto t (.waiting op)) := by
    simp only [Monitor.next, houtside]
  refine ⟨_, _, ?_, h.moves (t := t) (.allocating i) (.call t op)
    (.called op) rfl (fun heq => by cases heq) hnext
    (fun a' ha' => (Atomic.call_inv ha').2) ⟨ht, by omega, hlist, Or.inl ⟨rfl, hk⟩⟩ ?_,
    potential_step ht (fun u hne => ?_) ?_⟩
  · have hrequest : allocatorRequest layout 1 = (layout.nodeSize, layout.nodeAlignment) :=
      allocatorRequest_one layout
    simp only [SharedFill.threadStep, hthread, if_neg hlast]
    rw [hrequest, hnext]
    rfl
  · rintro p ⟨op', hdone⟩
    cases hdone
  · exact ⟨Function.update_of_ne hne .., Function.update_of_ne hne ..⟩
  · have hcalled : poolSteps (.waiting op) = 6 := rfl
    simp only [Monitor.goto, Function.update_self, hthread, stepsLeft, hcalled]
    omega

/-- The return from `allocate`. -/
theorem Ok.steps_return (h : s.Ok os m layout nodeCount.toNat threads a) {i : ℕ} {op : MutexOp}
    {r : MutexResult} (hthread : s.threads t = .allocating i)
    (hreturning : s.monitor.threads t = .returning op r) :
    Steps os m layout nodeCount threads s t := by
  have hfits := h.fits t
  rw [hthread] at hfits
  obtain ⟨ht, hi, hlist, hplace⟩ := hfits
  rw [h.simulates.threads, hreturning] at hplace
  obtain ⟨hcalled, -⟩ | ⟨p, hdone, hk⟩ := hplace
  · cases hcalled
  obtain ⟨rfl, rfl⟩ := AtomicPlace.done.inj hdone
  have hnext : s.monitor.next (mutexBody os) (.ret t (.address p)) =
      some (s.monitor.goto t .outside) := by
    simp only [Monitor.next, hreturning, if_pos]
  refine ⟨_, _, ?_, h.moves (t := t) (.linking i p) (.ret t (.address p))
    .outside rfl (fun heq => by cases heq) hnext
    (fun a' ha' => (Atomic.ret_inv ha').2) ⟨ht, hi, hlist, rfl, hk⟩ ?_,
    potential_step ht (fun u hne => ?_) ?_⟩
  · simp only [SharedFill.threadStep, hthread, hreturning]
    rw [hnext]
    rfl
  · rintro q rfl
    rw [hthread, h.simulates.threads, hreturning]
    exact ⟨_, rfl⟩
  · exact ⟨Function.update_of_ne hne .., Function.update_of_ne hne ..⟩
  · simp only [Function.update_self, hthread, hreturning, stepsLeft]
    rfl

theorem Ok.steps_link (h : s.Ok os m layout nodeCount.toNat threads a) {i : ℕ} {p : UIntPtr}
    (hthread : s.threads t = .linking i p) : Steps os m layout nodeCount threads s t := by
  have hfits := h.fits t
  rw [hthread] at hfits
  obtain ⟨ht, -⟩ := hfits
  obtain ⟨heap, hrun, hok⟩ := h.link hthread
  refine ⟨_, a, ?_, hok, potential_step ht (fun u hne => ?_) ?_⟩
  · simp only [SharedFill.threadStep, hthread, hrun]
  · exact ⟨Function.update_of_ne hne .., rfl⟩
  · simp only [Function.update_self, hthread, stepsLeft]

theorem Ok.steps_leave (h : s.Ok os m layout nodeCount.toNat threads a)
    (hthread : s.threads t = .leaving) : Steps os m layout nodeCount threads s t := by
  have hfits := h.fits t
  rw [hthread] at hfits
  obtain ⟨ht, hlist, hplace, hk⟩ := hfits
  have hop : s.heap.acceptsOp (.destroy t) = true := by
    have hsome := h.heap.lists t
    rw [hlist] at hsome
    exact hsome
  refine h.steps_calls ht .finished none ?_ hop rfl (fun _ h => by cases h) rfl
    ⟨rfl, hplace, by rw [if_pos ht, hk]⟩ (fun _ => id) ?_
  · simp only [SharedFill.threadStep, hthread]
  · rw [hthread]
    rfl

/-- A step of a thread in its own code. -/
theorem Ok.steps (h : s.Ok os m layout nodeCount.toNat threads a)
    (hpc : s.threads t ≠ .finished)
    (hreturns : ∀ i, s.threads t = .allocating i →
      ∃ op r, s.monitor.threads t = .returning op r) :
    Steps os m layout nodeCount threads s t := by
  cases hthread : s.threads t with
  | begin => exact h.steps_begin hthread
  | loop i =>
    rcases eq_or_ne i nodeCount.toNat with rfl | hlast
    · exact h.steps_release hthread
    · exact h.steps_call hthread hlast
  | allocating i =>
    obtain ⟨op, r, hreturning⟩ := hreturns i hthread
    exact h.steps_return hthread hreturning
  | linking i p => exact h.steps_link hthread
  | leaving => exact h.steps_leave hthread
  | finished => exact absurd hthread hpc

/-- A step of a thread in a member function of the pool lowers the steps that are left. -/
theorem Ok.potential_pool {monitor : Monitor MutexState MutexOp MutexPlace MutexResult}
    (h : s.Ok os m layout n threads a)
    (hsteps : (s.monitor.threads t).atomic ≠ .outside ∧
      poolSteps (monitor.threads t) + 1 = poolSteps (s.monitor.threads t) ∧
      ∀ u, u ≠ t → monitor.threads u = s.monitor.threads u) :
    potential n threads { s with monitor := monitor } + 1 ≤ potential n threads s := by
  obtain ⟨hplace, hfewer, hothers⟩ := hsteps
  obtain ⟨ht, i, hpc⟩ := h.allocating hplace
  refine potential_step ht (fun u hne => ⟨rfl, hothers u hne⟩) ?_
  simp only [hpc, stepsLeft]
  omega

/-- **Every step keeps the invariant**, and one step less is left. -/
theorem Ok.next (hm : m.Guards page layout.nodeSize.toNat)
    (hpage : layout.nodeAlignment.toNat ≤ page)
    (hroom : nodeCount.toNat * threads * layout.nodeSize.toNat ≤ m.hi - m.guardEnd)
    (h : s.Ok os m layout nodeCount.toNat threads a) {l : Label}
    (hnext : s.next os layout nodeCount l = some s') :
    (∃ a', s'.Ok os m layout nodeCount.toNat threads a') ∧
      potential nodeCount.toNat threads s' + 1 ≤ potential nodeCount.toNat threads s := by
  rw [next_eq_move h.fault] at hnext
  cases l with
  | thread t =>
    have hpc : s.threads t ≠ .finished := by
      intro hpc
      simp only [move, SharedFill.threadStep, hpc] at hnext
      cases hnext
    obtain ⟨s'', a', hstep, hok, hfewer⟩ := h.steps hpc fun i hi => by
      simp only [move, SharedFill.threadStep, hi] at hnext
      split at hnext
      · next op p hreturning => exact ⟨op, _, hreturning⟩
      · cases hnext
    obtain rfl := Option.some.inj (hstep.symm.trans hnext)
    exact ⟨⟨a', hok⟩, hfewer⟩
  | lock t =>
    obtain ⟨monitor, hmonitor, rfl⟩ := Option.map_eq_some_iff.mp hnext
    exact ⟨h.poolStep hm hpage hroom rfl hmonitor, h.potential_pool (poolSteps_lock hmonitor)⟩
  | body t =>
    obtain ⟨monitor, hmonitor, rfl⟩ := Option.map_eq_some_iff.mp hnext
    exact ⟨h.poolStep hm hpage hroom rfl hmonitor, h.potential_pool (poolSteps_body hmonitor)⟩
  | unlock t =>
    obtain ⟨monitor, hmonitor, rfl⟩ := Option.map_eq_some_iff.mp hnext
    exact ⟨h.poolStep hm hpage hroom rfl hmonitor, h.potential_pool (poolSteps_unlock hmonitor)⟩

/-- Until the threads are joined, one of them can move. -/
theorem Ok.progress (h : s.Ok os m layout nodeCount.toNat threads a)
    (hjoined : ¬ s.Joined) : ∃ l, (s.next os layout nodeCount l).isSome := by
  simp only [Joined, not_forall] at hjoined
  obtain ⟨t, ht⟩ := hjoined
  simp only [next_eq_move h.fault]
  by_cases hreturns : ∀ i, s.threads t = .allocating i →
      ∃ op r, s.monitor.threads t = .returning op r
  · obtain ⟨s', a', hstep, -, -⟩ := h.steps ht hreturns
    exact ⟨.thread t, by rw [move, hstep]; rfl⟩
  · -- the thread is in `allocate`: it can move, or waits for one that can
    push Not at hreturns
    obtain ⟨i, hpc, hnot⟩ := hreturns
    have hholder : ∀ u, s.monitor.holder = some u →
        ∃ l, (s.move os layout nodeCount l).isSome := by
      intro u hu
      have hholds := (h.simulates.holder u).mp hu
      cases hplace : s.monitor.threads u with
      | inside op l =>
        refine ⟨.body u, ?_⟩
        simp only [move, Monitor.next, hplace, Option.isSome_map]
        split <;> rfl
      | leaving op r =>
        refine ⟨.unlock u, ?_⟩
        simp only [move, Monitor.next, hplace, Option.isSome_map, Option.isSome_some]
      | _ =>
        rw [hplace] at hholds
        exact absurd hholds id
    cases hplace : s.monitor.threads t with
    | outside =>
      have hfits := h.fits t
      rw [hpc, h.simulates.threads, hplace] at hfits
      obtain ⟨-, -, -, ⟨hcalled, -⟩ | ⟨p, hdone, -⟩⟩ := hfits
      · cases hcalled
      · cases hdone
    | waiting op =>
      cases hfree : s.monitor.holder with
      | some u => exact hholder u hfree
      | none =>
        refine ⟨.lock t, ?_⟩
        simp only [move, Monitor.next, hplace, hfree, Option.isSome_map, Option.isSome_some]
    | inside op l | leaving op r =>
      exact hholder t ((h.simulates.holder t).mpr (by rw [hplace]; trivial))
    | returning op r => exact absurd hplace (hnot op r)

theorem start_ok (hm : m.Guards page layout.nodeSize.toNat) {pool : MutexDownwardPool}
    (process : Process) (hs : pool.pool.storage = m.storage)
    (hc : pool.pool.cursor = downwardPoolMappingEnd pool.pool.storage) :
    (start m pool process threads).Ok os m layout n threads (.start (pool, process)) where
  simulates := .start _
  fault := rfl
  pool := by
    refine ⟨PoolRun.start_ok hm hs hc, ?_, fun c hc => by cases hc⟩
    change pool.pool.cursor.toNat + 0 * _ = _
    rw [hc, hs, hm.toNat_mappingEnd, Nat.zero_mul, Nat.add_zero]
  heap := ⟨⟨_, represents_start _ _⟩, rfl, [], fun _ hq => by cases hq⟩
  cells _ hq := by cases hq
  fits t := by
    simp only [start]
    split
    · next ht => exact ⟨ht, rfl, rfl, rfl⟩
    · next ht => exact ⟨rfl, rfl, by rw [if_neg ht]; rfl⟩
  owed t p hp := by
    simp only [start] at hp
    split at hp <;> exact absurd hp id
  apart t u p hp := by
    simp only [start] at hp
    split at hp <;> exact absurd hp id

theorem potential_start (pool : MutexDownwardPool) (process : Process) :
    potential n threads (start m pool process threads) = threads * (8 * n + 3) := by
  have hterm : ∀ t ∈ Finset.range threads, stepsLeft n
      ((start m pool process threads).monitor.threads t)
      ((start m pool process threads).threads t) = 8 * n + 3 := by
    intro t ht
    simp only [start, if_pos (Finset.mem_range.mp ht), stepsLeft]
  rw [potential, Finset.sum_congr rfl hterm, Finset.sum_const, Finset.card_range, smul_eq_mul]

/-- After the threads have been joined the pool has handed out their nodes and nothing else. -/
theorem Ok.joined (hm : m.Guards page layout.nodeSize.toNat)
    (h : s.Ok os m layout n threads a) (hjoined : s.Joined) :
    s.monitor.holder = none ∧
      s.monitor.shared.1.usedBytes.toNat = n * threads * layout.nodeSize.toNat := by
  have hgiven : ∀ t, given a.log t = if t < threads then n else 0 := by
    intro t
    have hfits := h.fits t
    rw [hjoined t] at hfits
    exact hfits.2.2
  have hlength : a.log.length = n * threads := by
    have hsum := length_eq_sum_given (T := threads) fun t ht => by
      rw [hgiven, if_neg (by omega)]
    rw [hsum, Finset.sum_congr rfl fun t ht => by
      rw [hgiven, if_pos (Finset.mem_range.mp ht)], Finset.sum_const, Finset.card_range,
      smul_eq_mul, Nat.mul_comm]
  have hfree : s.monitor.holder = none := by
    by_contra hne
    obtain ⟨t, ht⟩ := Option.ne_none_iff_exists'.mp hne
    have hholds := (h.simulates.holder t).mp ht
    have hplace : (s.monitor.threads t).atomic ≠ .outside := by
      intro houtside
      cases hm : s.monitor.threads t <;> rw [hm] at houtside hholds <;>
        first | exact hholds | cases houtside
    obtain ⟨-, i, hpc⟩ := h.allocating hplace
    rw [hjoined t] at hpc
    cases hpc
  refine ⟨hfree, ?_⟩
  have hused := h.pool.lists.run.usedBytes hm rfl
  have hlowest := h.pool.lists.run.cursor_eq rfl
  have hcursor := h.pool.cursor
  rw [← h.simulates.free hfree]
  change a.shared.1.pool.usedBytes.toNat = _
  change a.shared.1.pool.usedBytes.toNat = m.hi - PoolRun.lowest m (a.log.map handedOut) at hused
  change a.shared.1.pool.cursor.toNat = PoolRun.lowest m (a.log.map handedOut) at hlowest
  rw [hused, ← hlowest, ← hlength]
  omega

end SharedFill

theorem checkedMultiply_ok {lhs rhs product : SizeT} (h : checkedMultiply lhs rhs = .ok product) :
    product.toNat = lhs.toNat * rhs.toNat := by
  unfold checkedMultiply at h
  split at h
  · cases h
  · next hnot =>
    obtain rfl := Except.ok.inj h
    rcases eq_or_ne rhs 0 with rfl | hne
    · simp
    · have hle : ¬ BitVec.allOnes 64 / rhs < lhs := fun hlt => hnot ⟨hne, hlt⟩
      have hpos : 0 < rhs.toNat := by
        rw [Nat.pos_iff_ne_zero]
        exact fun hzero => hne (BitVec.eq_of_toNat_eq hzero)
      rw [BitVec.not_lt, BitVec.le_def, BitVec.toNat_udiv, BitVec.toNat_allOnes] at hle
      have hmul := (Nat.le_div_iff_mul_le hpos).mp hle
      rw [BitVec.toNat_mul, Nat.mod_eq_of_lt (by omega)]

theorem nodeStorageRequired_ok {layout : NodeLayout} {nodeCount : SizeT}
    {threadCount : BitVec 32} {bytes : SizeT}
    (h : nodeStorageRequired layout nodeCount threadCount = .ok bytes) :
    bytes.toNat = nodeCount.toNat * threadCount.toNat * layout.nodeSize.toNat := by
  unfold nodeStorageRequired at h
  cases hnodes : checkedMultiply nodeCount (threadCount.setWidth 64) with
  | error e =>
    rw [hnodes] at h
    cases h
  | ok nodes =>
    rw [hnodes] at h
    have hthreads : (threadCount.setWidth 64).toNat = threadCount.toNat := by
      rw [BitVec.toNat_setWidth, Nat.mod_eq_of_lt (by have := threadCount.isLt; omega)]
    rw [checkedMultiply_ok h, checkedMultiply_ok hnodes, hthreads]

/-- **The threads of the benchmark fill the pool exactly.** A `MutexDownwardPool` is made for
`node_storage_required` bytes, the nodes of `threadCount` threads with `nodeCount` nodes each. In
every schedule of the threads no construction of a node faults, each list holds the numbers that
its thread has pushed, also inside a `push_front`, and until all threads are joined one of them can
move; after
`threadCount * (8 * nodeCount + 3)` steps they are, and then the used bytes of the pool are those
that were required. -/
theorem shared_fill_exact {os : Os} (hos : os.Lawful) {layout : NodeLayout}
    (hpage : layout.nodeAlignment.toNat ≤ os.page) {nodeCount bytes : SizeT}
    {threadCount : BitVec 32} (hreq : nodeStorageRequired layout nodeCount threadCount = .ok bytes)
    (hround : bytes.toNat + (os.page - 1) < 2 ^ 64)
    (hguard : layout.nodeSize.toNat + (os.page - 1) < 2 ^ 64) {process process' : Process}
    {pool : MutexDownwardPool}
    (hmake : MutexDownwardPool.make os bytes layout.nodeSize process = (.ok pool, process')) :
    ∃ m, process'.mappings = m :: process.mappings ∧ m.storage = pool.pool.storage ∧
      ∀ ls s, run (SharedFill.next os layout nodeCount)
          (SharedFill.start m pool process' threadCount.toNat) ls = some s →
        s.fault = false ∧
        (∀ t, s.heap.sequences t = (s.threads t).pushed.map filled) ∧
        ls.length ≤ threadCount.toNat * (8 * nodeCount.toNat + 3) ∧
        (¬ s.Joined → ∃ l, (s.next os layout nodeCount l).isSome) ∧
        (s.Joined → s.monitor.holder = none ∧ s.monitor.shared.1.usedBytes = bytes) := by
  have hmake' : DownwardPool.make os bytes layout.nodeSize process = (.ok pool.pool, process') := by
    unfold MutexDownwardPool.make at hmake
    split at hmake
    · cases hmake
    · next p process'' heq =>
      obtain ⟨hpool, rfl⟩ := Prod.mk.inj hmake
      obtain rfl := Except.ok.inj hpool
      exact heq
  obtain ⟨hstorage, hcursor⟩ := DownwardPool.make_ok hmake'
  obtain ⟨m, hm, hms, -, husable, hmem⟩ := makeDownwardPoolStorage_guards hos hguard hstorage
  have hbytes := nodeStorageRequired_ok hreq
  have hroom : nodeCount.toNat * threadCount.toNat * layout.nodeSize.toNat ≤
      m.hi - m.guardEnd := by
    have hle := AlignedWord.le_ceilTo hos.page_pos bytes.toNat
    have hceil : (roundUp bytes (BitVec.ofInt 64 os.pageSize)).toNat =
        AlignedWord.ceilTo bytes.toNat os.page := toNat_roundUp hos.pageSize_pow hround
    omega
  refine ⟨m, hmem, hms, fun ls s hrun => ?_⟩
  have hstart : SharedFill.Ok os m layout nodeCount.toNat threadCount.toNat _ _ :=
    SharedFill.start_ok hm process' hms.symm hcursor
  have hstep : ∀ s l s', (∃ a, SharedFill.Ok os m layout nodeCount.toNat threadCount.toNat s a) →
      s.next os layout nodeCount l = some s' →
      (∃ a', SharedFill.Ok os m layout nodeCount.toNat threadCount.toNat s' a') ∧
        s'.potential nodeCount.toNat threadCount.toNat + 1 ≤
          s.potential nodeCount.toNat threadCount.toNat := by
    rintro s l s' ⟨a, h⟩ hnext
    exact h.next hm hpage hroom hnext
  obtain ⟨a, h⟩ := run_invariant (fun s l s' h (_ : True) hnext => (hstep s l s' h hnext).1)
    ⟨_, hstart⟩ (fun _ _ => trivial) hrun
  have hcost := run_cost_le (fun s l s' h hnext => (hstep s l s' h hnext).1)
    (fun s l s' h hnext => (hstep s l s' h hnext).2 : ∀ s l s', _ → _ →
      s'.potential nodeCount.toNat threadCount.toNat + (fun _ => 1) l ≤
        s.potential nodeCount.toNat threadCount.toNat + (fun _ => 0) l) ⟨_, hstart⟩ hrun
  rw [cost_eq_length fun _ _ => rfl, cost_eq_zero fun _ _ => rfl,
    SharedFill.potential_start] at hcost
  refine ⟨h.fault, fun t => (h.fits t).list_eq, by omega, h.progress, fun hjoined => ?_⟩
  · obtain ⟨hfree, hused⟩ := h.joined hm hjoined
    exact ⟨hfree, BitVec.eq_of_toNat_eq (hused.trans hbytes.symm)⟩

/-- Two threads with a node each. Thread 1 calls `allocate` while thread 0 has the mutex. -/
def twoFillers : List SharedFill.Label :=
  [.thread 0, .thread 1, .thread 0, .lock 0, .body 0, .thread 1, .body 0, .body 0, .unlock 0,
    .lock 1, .body 1, .thread 0, .thread 0, .body 1, .body 1]

theorem shared_fill_exact_twoFillers :
    ∃ pool process', MutexDownwardPool.make Os.fixed 32 16 ⟨[], none, []⟩ =
        (.ok pool, process') ∧
      ∃ m s, process'.mappings = [m] ∧
        run (SharedFill.next Os.fixed NodeLayout.int 1) (SharedFill.start m pool process' 2)
          twoFillers = some s ∧
        s.threads 0 = .loop 1 ∧ s.fault = false ∧ s.heap.sequences 0 = some [0] := by
  refine ⟨_, _, rfl, ?_⟩
  obtain ⟨m, hmem, -, hruns⟩ := shared_fill_exact Os.fixed_lawful (by decide)
    (show nodeStorageRequired NodeLayout.int 1 2 = .ok 32 from rfl) (by decide) (by decide)
    (show MutexDownwardPool.make Os.fixed 32 16 ⟨[], none, []⟩ = _ from rfl)
  obtain rfl := (List.cons.inj hmem).1
  have hfacts : (run (SharedFill.next Os.fixed NodeLayout.int 1)
      (SharedFill.start ⟨0x10000, 0x2000, 0x1000⟩ ⟨⟨⟨0x10000, 0x2000⟩, 0x12000⟩⟩
        (MutexDownwardPool.make Os.fixed 32 16 ⟨[], none, []⟩).2 2) twoFillers).map
          (fun s => s.threads 0) = some (.loop 1) := by
    decide +kernel
  obtain ⟨s, hs, hpc⟩ := Option.map_eq_some_iff.mp hfacts
  obtain ⟨hfault, hlists, -⟩ := hruns twoFillers s hs
  refine ⟨_, s, rfl, hs, hpc, hfault, ?_⟩
  rw [hlists 0, hpc]
  rfl

end Doost.Lists
