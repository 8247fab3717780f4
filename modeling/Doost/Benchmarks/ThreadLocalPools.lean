import Doost.Benchmarks.Arguments
import Doost.Benchmarks.RunThreads
import Doost.Pools.Capacity
import Doost.Pools.Objects
import Doost.Pools.SlotOwners

/-!
# Threads with pools of their own

The benchmark of `thread_local_pool_benchmark`: each thread constructs a pool for the nodes of one
list, fills the list, notes what the pool says of itself, and gives the pool up again. The threads
share the process, whose mappings they make and release, the registry of the guards, and the vectors
that they store their results to.

`mmap`, `mprotect` and `munmap` are one step each, and so is every load and store of the registry;
what a thread does with its own pool and list is one step for each call. A construction that the
system refuses ends its thread by an exception. `thread_local_pools_exact` says how `run_threads`
ends then and otherwise, for every order of the steps.
-/

namespace Doost.Benchmarks

open Transition Pools Doost.Lists SoleOwners

namespace ThreadLocalPools

/-! ## The program -/

/-- What the threads share. The registry is apart from the process, since its loads and stores are
steps of their own. -/
structure Shared where
  process : Process
  entries : ℕ → PoolRegistryEntry
  usable : ℕ → SizeT
  used : ℕ → SizeT

/-- Where a thread is in the function of the benchmark. `m` is the mapping under its pool, and list
0 is its list. -/
inductive Place
  /-- Next `make_downward_pool_storage` makes the mapping. -/
  | mapping
  /-- In `register_pool_guard`. -/
  | registering (m : Mapping) (pool : DownwardPool) (pc : GuardPc)
  /-- Next the list is constructed. -/
  | constructing (m : Mapping) (pool : DownwardPool)
  /-- At the head of the loop of `fill_list`. -/
  | filling (m : Mapping) (lists : PoolLists (BitVec 32)) (i : ℕ)
  /-- Next `usable_bytes` and `used_bytes` are stored. -/
  | measuring (m : Mapping) (lists : PoolLists (BitVec 32))
  | releasingNodes (m : Mapping) (lists : PoolLists (BitVec 32))
  /-- In `unregister_pool_guard`, called by `release`. -/
  | unregistering (m : Mapping) (lists : PoolLists (BitVec 32)) (pc : GuardPc)
  /-- Next the mapping is released. -/
  | unmapping (m : Mapping) (lists : PoolLists (BitVec 32))
  /-- Next the list and the pool, which is empty, are destroyed. -/
  | leaving (pool : DownwardPool) (heap : NodeHeap UIntPtr Unit (BitVec 32))

abbrev Step := Option (Progress Place PoolError × Shared)

/-- A call on the list. A node that is constructed below the pool ends the process. -/
def call (layout : NodeLayout) (lists : PoolLists (BitVec 32))
    (op : ListOp UIntPtr Unit (BitVec 32)) (place : PoolLists (BitVec 32) → Place)
    (shared : Shared) : Step :=
  (lists.next layout id op).map fun lists =>
    (if lists.fault.isSome then .crashes else .goesOn (place lists), shared)

/-- A load or a store of the registry. -/
def access (pc : GuardPc) (place : GuardPc → Place) (shared : Shared) : Step :=
  (guardStep shared.entries pc).map fun moved =>
    (.goesOn (place moved.2), { shared with entries := moved.1 })

/-- The call of `unregister_pool_guard` for the guard of `m`. -/
def unregisterPc (m : Mapping) : GuardPc :=
  if m.mappingBegin = 0 then .idle else .unregisterLoad m.guard 0

/-- The function that `run_threads` is called with. -/
def function (layout : NodeLayout) (nodeCount storagePerThread : SizeT) :
    ThreadFunction Shared Place Os PoolError where
  start _ := .mapping
  step index place os shared :=
    match place with
    | .mapping =>
      match DownwardPool.make os storagePerThread layout.nodeSize shared.process with
      | (.ok pool, process) =>
        process.mappings.head?.map fun m =>
          (.goesOn (.registering m pool (.registerLoad m.guard 0)),
            { shared with process := process })
      | (.error e, process) => some (.ends (.error e), { shared with process := process })
    | .registering m pool (.registered _) => some (.goesOn (.constructing m pool), shared)
    | .registering m pool pc => access pc (.registering m pool) shared
    | .constructing m pool =>
      call layout (.start m pool) (.construct 0 ()) (.filling m · 0) shared
    | .filling m lists i =>
      if i = nodeCount.toNat then some (.goesOn (.measuring m lists), shared)
      else call layout lists (.pushFront 0 (.value (BitVec.ofNat 32 i)) 0) (.filling m · (i + 1))
        shared
    | .measuring m lists =>
      some (.goesOn (.releasingNodes m lists),
        { shared with
          usable := Function.update shared.usable index (lists.pool.usableBytes os)
          used := Function.update shared.used index lists.pool.usedBytes })
    | .releasingNodes m lists =>
      call layout lists (.releaseNodes 0) (.unregistering m · (unregisterPc m)) shared
    | .unregistering m lists .idle => some (.goesOn (.unmapping m lists), shared)
    | .unregistering m lists pc => access pc (.unregistering m lists) shared
    | .unmapping _ lists =>
      let (pool, process) := lists.pool.release shared.process
      some (.goesOn (.leaving pool lists.heap), { shared with process := process })
    | .leaving pool heap =>
      match heap.perform (poolTraits id) ⟨.destroy 0, [], []⟩ with
      | some (.ok (), _) =>
        some (.ends (.ok ()), { shared with process := (pool.release shared.process).2 })
      | _ => none

/-- A process without pools. -/
def start : Shared := ⟨⟨[], none, []⟩, fun _ => ⟨0, 0⟩, fun _ => 0, fun _ => 0⟩

/-- The loop of the benchmark after `run_threads`. -/
def poolStats (shared : Shared) (threadCount : ℕ) : PoolStats :=
  (List.range threadCount).foldl
    (fun stats index =>
      ⟨stats.usableStorage + shared.usable index, stats.usedStorage + shared.used index⟩)
    ⟨0, 0⟩

/-- What the system answers: as it is documented to, with pages of `page` bytes, and with mappings
apart from those that are there. -/
def Answers (page : ℕ) (shared : Shared) (os : Os) : Prop :=
  os.Lawful ∧ os.page = page ∧ os.Answers shared.process

/-! ## The list of a thread -/

section List

variable {page bytes : ℕ} {layout : NodeLayout} {m : Mapping} {pool : DownwardPool}
  {lists : PoolLists (BitVec 32)}

/-- The mapping has room for the nodes of a list. -/
structure Room (page : ℕ) (layout : NodeLayout) (bytes : ℕ) (m : Mapping) : Prop where
  guards : m.Guards page layout.nodeSize.toNat
  room : bytes ≤ m.hi - m.guardEnd

/-- The pool is over `m`, and has handed out nothing. -/
structure Fresh (m : Mapping) (pool : DownwardPool) : Prop where
  storage : pool.storage = m.storage
  cursor : pool.cursor = downwardPoolMappingEnd pool.storage

/-- `i` nodes have been taken from the pool over `m`, and the list is `list`. -/
structure Filled (page : ℕ) (layout : NodeLayout) (bytes : ℕ) (m : Mapping)
    (lists : PoolLists (BitVec 32)) (i : ℕ) (list : List (BitVec 32)) : Prop where
  room : Room page layout bytes m
  ok : lists.Ok m layout id
  fault : lists.fault = none
  length : lists.nodes.length = i
  sequence : lists.heap.sequences 0 = some list

theorem heapOk_of_ok (h : lists.Ok m layout id) (hf : lists.fault = none) :
    HeapOk m lists.heap where
  chains := h.chains hf
  accessible := (h.within hf).2.2
  finite := ⟨_, (h.within hf).2.1⟩

/-- A call that takes no node. -/
theorem next_call (h : lists.Ok m layout id) (hf : lists.fault = none)
    (op : ListOp UIntPtr Unit (BitVec 32)) (hop : op.isPush = false) (hcopies : op.copies = false)
    (haccepts : lists.heap.acceptsOp op = true) (hneeds : lists.heap.needs op = 0)
    (hpop : ∀ i, op ≠ .popFront i) :
    ∃ lists', lists.next layout id op = some lists' ∧ lists'.Ok m layout id ∧
      lists'.fault = none ∧ lists'.nodes = lists.nodes ∧
      lists'.heap.sequences = lists.heap.sequences.apply id (lists.heap.meaning op) := by
  obtain ⟨lists', hnext, hok, hf', hnodes⟩ := h.other hf hop hcopies haccepts
  obtain ⟨heap, hrun, -, -, hsequences⟩ := (heapOk_of_ok h hf).call haccepts hneeds hpop
  refine ⟨lists', hnext, hok, hf', hnodes, ?_⟩
  rw [PoolLists.next, PoolLists.next_of_accepts hf hcopies haccepts, if_neg Bool.false_ne_true,
    if_neg (Bool.eq_false_iff.mp hop), hrun, Option.map_some] at hnext
  obtain rfl := Option.some.inj hnext
  exact hsequences

theorem Fresh.construct (hroom : Room page layout bytes m) (h : Fresh m pool) :
    ∃ lists, (PoolLists.start m pool).next layout id (.construct 0 ()) = some lists ∧
      Filled page layout bytes m lists 0 [] := by
  have hstart : (PoolLists.start m pool : PoolLists (BitVec 32)).Ok m layout id :=
    PoolLists.start_ok hroom.guards h.storage h.cursor
  obtain ⟨lists, hnext, hok, hf, hnodes, hsequences⟩ := next_call hstart rfl
    (.construct 0 ()) rfl rfl rfl rfl fun _ => nofun
  refine ⟨lists, hnext, hroom, hok, hf, ?_, ?_⟩
  · rw [hnodes]
    rfl
  · rw [hsequences]
    rfl

variable {i : ℕ} {list : List (BitVec 32)} {v : BitVec 32}

theorem Filled.lists_isSome (h : Filled page layout bytes m lists i list) :
    (lists.heap.lists 0).isSome = true := by
  rw [(heapOk_of_ok h.ok h.fault).lists, h.sequence]
  rfl

theorem Filled.push (hpage : layout.nodeAlignment.toNat ≤ page)
    (h : Filled page layout bytes m lists i list)
    (hfits : (i + 1) * layout.nodeSize.toNat ≤ bytes) :
    ∃ lists', lists.next layout id (.pushFront 0 (.value v) 0) = some lists' ∧
      Filled page layout bytes m lists' (i + 1) (v :: list) := by
  have haccepts : lists.heap.acceptsOp (.pushFront 0 (.value v) 0) = true := by
    simp [NodeHeap.acceptsOp, NodeHeap.acceptsSource, h.lists_isSome]
  have habove : m.guardEnd ≤ (lists.take layout).1.lo := by
    have htake := (h.ok.take h.room.guards hpage h.fault).1
    have hroom := h.room.room
    have hend := h.room.guards.guardEnd_le_hi
    rw [h.length] at htake
    omega
  obtain ⟨lists', hnext, hok, hf, hnodes, hsequences⟩ :=
    h.ok.push h.room.guards hpage h.fault rfl haccepts habove
  refine ⟨lists', hnext, h.room, hok, hf, ?_, ?_⟩
  · rw [hnodes, List.length_cons, h.length]
  · rw [hsequences]
    simp only [NodeHeap.meaning, NodeHeap.argument, Sequences.apply, Sequences.Argument.read,
      Sequences.Argument.leave, h.sequence, Option.map_some, Function.update_self]

theorem Filled.releaseNodes (h : Filled page layout bytes m lists i list) :
    ∃ lists', lists.next layout id (.releaseNodes 0) = some lists' ∧
      Filled page layout bytes m lists' i [] := by
  obtain ⟨lists', hnext, hok, hf, hnodes, hsequences⟩ := next_call h.ok h.fault
    (.releaseNodes 0) rfl rfl h.lists_isSome rfl fun _ => nofun
  refine ⟨lists', hnext, h.room, hok, hf, ?_, ?_⟩
  · rw [hnodes, h.length]
  · rw [hsequences]
    simp only [NodeHeap.meaning, Sequences.apply, Function.update_self]

/-- What the pool says of itself. -/
theorem Filled.usedBytes (h : Filled page layout bytes m lists i list) :
    lists.pool.usedBytes.toNat = i * layout.nodeSize.toNat := by
  rw [(h.ok.held h.room.guards h.fault).usedBytes, h.length]

theorem Filled.usableBytes {os : Os} (hos : os.Lawful) (hpage : os.page = page)
    (h : Filled page layout bytes m lists i list) :
    bytes ≤ (lists.pool.usableBytes os).toNat := by
  have hstorage : lists.pool.storage = m.storage := h.ok.run.storage_eq
  have hguard : page ≤ m.guardBytes.toNat :=
    Nat.le_of_dvd (layout.size_pos.trans_le h.room.guards.maxAlloc_le) h.room.guards.guard_dvd
  have hroom := h.room.room
  have hhi : m.hi = m.mappingBegin.toNat + m.mappingBytes.toNat := rfl
  have hend : m.guardEnd = m.mappingBegin.toNat + m.guardBytes.toNat := rfl
  have hle := h.room.guards.guard_le
  rw [DownwardPool.usableBytes, toNat_downwardPoolUsableBytes hos, hpage, hstorage]
  change bytes ≤ m.mappingBytes.toNat - page
  omega

end List

/-! ## The invariant -/

/-- What a thread has stored about a pool for `bytes` bytes that is full. -/
def Measured (bytes : ℕ) (used usable : SizeT) : Prop :=
  used.toNat = bytes ∧ used.toNat ≤ usable.toNat

namespace Place

/-- The mapping that the thread has to release. -/
def held : Place → Option Mapping
  | mapping => none
  | registering m _ _ => some m
  | constructing m _ => some m
  | filling m _ _ => some m
  | measuring m _ => some m
  | releasingNodes m _ => some m
  | unregistering m _ _ => some m
  | unmapping m _ => some m
  | leaving _ _ => none

/-- Where the thread is with its guard. -/
def guardPc : Place → GuardPc
  | mapping => .idle
  | registering _ _ pc => pc
  | constructing m _ => .registered m.guard
  | filling m _ _ => .registered m.guard
  | measuring m _ => .registered m.guard
  | releasingNodes m _ => .registered m.guard
  | unregistering _ _ pc => pc
  | unmapping _ _ => .idle
  | leaving _ _ => .idle

/-- What holds of the pool and the list of a thread that pushes `n` nodes. -/
def Fits (page : ℕ) (layout : NodeLayout) (n : ℕ) (used usable : SizeT) : Place → Prop
  | mapping => True
  | registering m pool pc =>
    Room page layout (n * layout.nodeSize.toNat) m ∧ Fresh m pool ∧ pc.InRegister m.guard
  | constructing m pool => Room page layout (n * layout.nodeSize.toNat) m ∧ Fresh m pool
  | filling m lists i =>
    i ≤ n ∧ Filled page layout (n * layout.nodeSize.toNat) m lists i (filled i)
  | measuring m lists =>
    Filled page layout (n * layout.nodeSize.toNat) m lists n (filled n)
  | releasingNodes m lists =>
    Filled page layout (n * layout.nodeSize.toNat) m lists n (filled n) ∧
      Measured (n * layout.nodeSize.toNat) used usable
  | unregistering m lists pc =>
    Filled page layout (n * layout.nodeSize.toNat) m lists n [] ∧
      Measured (n * layout.nodeSize.toNat) used usable ∧ pc.InUnregister m.guard
  | unmapping m lists =>
    Filled page layout (n * layout.nodeSize.toNat) m lists n [] ∧
      Measured (n * layout.nodeSize.toNat) used usable
  | leaving pool heap =>
    pool.storage = .empty ∧ (∃ m, HeapOk m heap) ∧ heap.sequences 0 = some [] ∧
      Measured (n * layout.nodeSize.toNat) used usable

/-- The steps that a thread with `n` nodes has left in the function. -/
def left (n : ℕ) : Place → ℕ
  | mapping => n + 2 * kMaxRegisteredPools + 14
  | registering _ _ pc => n + kMaxRegisteredPools + 10 + pc.stepsLeft
  | constructing _ _ => n + kMaxRegisteredPools + 9
  | filling _ _ i => n - i + kMaxRegisteredPools + 8
  | measuring _ _ => kMaxRegisteredPools + 7
  | releasingNodes _ _ => kMaxRegisteredPools + 6
  | unregistering _ _ pc => 2 + pc.stepsLeft
  | unmapping _ _ => 1
  | leaving _ _ => 0

end Place

/-- The threads of `run_threads`. -/
abbrev PoolThread := Thread Place PoolError

namespace PoolThread

def held : PoolThread → Option Mapping
  | .running place => place.held
  | _ => none

def guardPc : PoolThread → GuardPc
  | .running place => place.guardPc
  | _ => .idle

def Fits (page : ℕ) (layout : NodeLayout) (n : ℕ) (used usable : SizeT) : PoolThread → Prop
  | .running place => place.Fits page layout n used usable
  | .ended (.ok ()) => Measured (n * layout.nodeSize.toNat) used usable
  | _ => True

end PoolThread

/-- What holds between two steps: every mapping belongs to one thread, whatever has become of the
guards in the registry. -/
structure Inv (page : ℕ) (layout : NodeLayout) (n : ℕ) (shared : Shared)
    (threads : ℕ → PoolThread) : Prop where
  process : ∃ slotted, shared.process.Ok slotted
  owned : OwnedOnce (PoolThread.held ∘ threads) {m | m ∈ shared.process.mappings}
  slots : SlotsOwned shared.entries (PoolThread.guardPc ∘ threads)
  fits : ∀ t, (threads t).Fits page layout n (shared.used t) (shared.usable t)

variable {page n t : ℕ} {layout : NodeLayout} {nodeCount storagePerThread : SizeT}
  {shared shared' : Shared} {threads : ℕ → PoolThread} {thread thread' : PoolThread} {place : Place}
  {m : Mapping} {pool : DownwardPool} {lists : PoolLists (BitVec 32)} {pc : GuardPc} {os : Os}

/-- A thread that keeps its mapping leaves the others theirs. -/
theorem Inv.owned_update (h : Inv page layout n shared threads) (ht : threads t = thread)
    (hheld : thread'.held = thread.held) :
    OwnedOnce (Function.update (PoolThread.held ∘ threads) t thread'.held)
      {m | m ∈ shared.process.mappings} := by
  rw [hheld, ← congrArg PoolThread.held ht, ← Function.comp_apply (f := PoolThread.held),
    Function.update_eq_self]
  exact h.owned

/-- A thread that stays where it is with its guard keeps its slot. -/
theorem Inv.slots_update (h : Inv page layout n shared threads) (ht : threads t = thread)
    (hpc : thread'.guardPc = thread.guardPc) :
    SlotsOwned shared.entries
      (Function.update (PoolThread.guardPc ∘ threads) t thread'.guardPc) := by
  rw [hpc, ← congrArg PoolThread.guardPc ht, ← Function.comp_apply (f := PoolThread.guardPc),
    Function.update_eq_self]
  exact h.slots

/-- One thread is somewhere else. -/
theorem Inv.update (h : Inv page layout n shared threads)
    (hprocess : ∃ slotted, shared'.process.Ok slotted)
    (howned : OwnedOnce (Function.update (PoolThread.held ∘ threads) t thread.held)
      {m | m ∈ shared'.process.mappings})
    (hslots : SlotsOwned shared'.entries
      (Function.update (PoolThread.guardPc ∘ threads) t thread.guardPc))
    (hothers : ∀ u, u ≠ t → shared'.used u = shared.used u ∧ shared'.usable u = shared.usable u)
    (hfits : thread.Fits page layout n (shared'.used t) (shared'.usable t)) :
    Inv page layout n shared' (Function.update threads t thread) where
  process := hprocess
  owned := by rwa [Function.comp_update]
  slots := by rwa [Function.comp_update]
  fits u := by
    rcases eq_or_ne u t with rfl | hne
    · rwa [Function.update_self]
    · rw [Function.update_of_ne hne, (hothers u hne).1, (hothers u hne).2]
      exact h.fits u

/-- A step of a thread with its own pool and list. -/
theorem Inv.own (h : Inv page layout n shared threads) (ht : threads t = thread)
    (hprocess : shared'.process = shared.process) (hentries : shared'.entries = shared.entries)
    (hheld : thread'.held = thread.held) (hpc : thread'.guardPc = thread.guardPc)
    (hothers : ∀ u, u ≠ t → shared'.used u = shared.used u ∧ shared'.usable u = shared.usable u)
    (hfits : thread'.Fits page layout n (shared'.used t) (shared'.usable t)) :
    Inv page layout n shared' (Function.update threads t thread') := by
  refine h.update (hprocess ▸ h.process) ?_ ?_ hothers hfits
  · rw [hprocess]
    exact h.owned_update ht hheld
  · rw [hentries]
    exact h.slots_update ht hpc

/-- A load or a store of the registry. -/
theorem Inv.access (h : Inv page layout n shared threads) (ht : threads t = thread)
    {entries : ℕ → PoolRegistryEntry}
    (hstep : guardStep shared.entries thread.guardPc = some (entries, pc))
    (hheld : thread'.held = thread.held) (hpc : thread'.guardPc = pc)
    (hfits : thread'.Fits page layout n (shared.used t) (shared.usable t)) :
    Inv page layout n { shared with entries := entries } (Function.update threads t thread') := by
  refine h.update h.process (h.owned_update ht hheld) ?_ (fun _ _ => ⟨rfl, rfl⟩) hfits
  rw [hpc]
  rw [← ht] at hstep
  exact h.slots.step hstep

/-- The guard of a thread is that of a mapping that is there. -/
theorem Inv.guard_mem (h : Inv page layout n shared threads) {guard : PoolRegistryEntry}
    (hguard : (threads t).guardPc.guard = some guard) :
    ∃ m ∈ shared.process.mappings, m.guard = guard := by
  suffices hheld : ∃ m, (threads t).held = some m ∧ m.guard = guard by
    obtain ⟨m, hheld, hm⟩ := hheld
    exact ⟨m, h.owned.live t m hheld, hm⟩
  have hfits := h.fits t
  cases hthread : threads t with
  | absent | ended result =>
    rw [hthread] at hguard
    cases hguard
  | running place =>
    rw [hthread] at hguard hfits
    cases place with
    | mapping | leaving pool heap | unmapping m lists => cases hguard
    | registering m pool pc => exact ⟨m, rfl, (hfits.2.2.guard_eq hguard).symm⟩
    | unregistering m lists pc => exact ⟨m, rfl, (hfits.2.2.guard_eq hguard).symm⟩
    | constructing m pool | filling m lists i | measuring m lists | releasingNodes m lists =>
      exact ⟨m, rfl, Option.some.inj hguard⟩

/-- A mapping that has been made for a thread. -/
theorem Inv.map (h : Inv page layout n shared threads) (hos : Answers page shared os)
    (hbytes : storagePerThread.toNat = n * layout.nodeSize.toNat)
    (hround : storagePerThread.toNat + (page - 1) < 2 ^ 64)
    (hguard : layout.nodeSize.toNat + (page - 1) < 2 ^ 64)
    (ht : threads t = .running .mapping) {process : Process}
    (hmake : DownwardPool.make os storagePerThread layout.nodeSize shared.process =
      (.ok pool, process)) :
    ∃ m, process.mappings = m :: shared.process.mappings ∧
      Inv page layout n { shared with process := process }
        (Function.update threads t
          (.running (.registering m pool (.registerLoad m.guard 0)))) := by
  obtain ⟨hlawful, rfl, hanswers⟩ := hos
  obtain ⟨hstorage, hcursor⟩ := DownwardPool.make_ok hmake
  obtain ⟨m, hm, hms, -, husable, hmem⟩ := makeDownwardPoolStorage_guards hlawful hguard hstorage
  obtain ⟨slotted, hprocess⟩ := h.process
  obtain ⟨m', -, hmem', hprocess'⟩ := hprocess.make hanswers hstorage
  obtain rfl := (List.cons.inj (hmem.symm.trans hmem')).1
  have hnodup := hprocess'.nodup
  rw [hmem, List.map_cons, List.nodup_cons] at hnodup
  refine ⟨m, hmem, h.update ⟨_, hprocess'⟩ ?_ ?_ (fun _ _ => ⟨rfl, rfl⟩) ⟨⟨hm, ?_⟩,
    ⟨hms.symm, hcursor⟩, rfl⟩⟩
  · have hnew : m ∉ shared.process.mappings := fun hold => hnodup.1 (List.mem_map_of_mem hold)
    have hset : {m' | m' ∈ process.mappings} = insert m {m' | m' ∈ shared.process.mappings} := by
      ext m'
      rw [Set.mem_ofPred_eq, hmem, List.mem_cons]
      rfl
    rw [hset]
    exact h.owned.acquire (congrArg PoolThread.held ht) hnew
  · refine h.slots.arrive (congrArg PoolThread.guardPc ht) fun u other hother hbegin => ?_
    obtain ⟨m', hold, rfl⟩ := h.guard_mem hother
    have hsame : m'.mappingBegin = m.mappingBegin := hbegin
    exact hnodup.1 (hsame ▸ List.mem_map_of_mem hold)
  · have hle := AlignedWord.le_ceilTo hlawful.page_pos storagePerThread.toNat
    have hceil : (roundUp storagePerThread (BitVec.ofInt 64 os.pageSize)).toNat =
        AlignedWord.ceilTo storagePerThread.toNat os.page :=
      toNat_roundUp hlawful.pageSize_pow hround
    omega

/-- A thread whose pool could not be constructed. -/
theorem Inv.refuse (h : Inv page layout n shared threads) {e : PoolError}
    (ht : threads t = .running .mapping) {process : Process}
    (hmake : DownwardPool.make os storagePerThread layout.nodeSize shared.process =
      (.error e, process)) :
    Inv page layout n { shared with process := process }
      (Function.update threads t (.ended (.error e))) := by
  have hstorage : makeDownwardPoolStorage os storagePerThread layout.nodeSize shared.process =
      (.error e, process) := by
    rw [DownwardPool.make] at hmake
    split at hmake
    · next e' process' hmake' =>
      obtain ⟨herror, rfl⟩ := Prod.mk.inj hmake
      obtain rfl := Except.error.inj herror
      exact hmake'
    · cases hmake
  obtain ⟨slotted, hprocess⟩ := h.process
  obtain ⟨hmappings, -, hprocess'⟩ := hprocess.make_error hstorage
  refine h.update ⟨_, hprocess'⟩ ?_ (h.slots_update ht rfl) (fun _ _ => ⟨rfl, rfl⟩) trivial
  change OwnedOnce _ {m | m ∈ process.mappings}
  rw [hmappings]
  exact h.owned_update ht rfl

/-- A thread whose `release` calls `unregister_pool_guard`. -/
theorem Inv.unregister (h : Inv page layout n shared threads)
    (ht : threads t = .running (.releasingNodes m lists)) {lists' : PoolLists (BitVec 32)}
    (hfits : (Place.unregistering m lists' (.unregisterLoad m.guard 0)).Fits page layout n
      (shared.used t) (shared.usable t)) :
    Inv page layout n shared (Function.update threads t
      (.running (.unregistering m lists' (.unregisterLoad m.guard 0)))) :=
  h.update h.process (h.owned_update ht rfl)
    (h.slots.unregister (congrArg PoolThread.guardPc ht)) (fun _ _ => ⟨rfl, rfl⟩) hfits

/-- A thread that releases its mapping. -/
theorem Inv.unmap (h : Inv page layout n shared threads)
    (ht : threads t = .running (.unmapping m lists)) :
    Inv page layout n { shared with process := (lists.pool.release shared.process).2 }
      (Function.update threads t
        (.running (.leaving (lists.pool.release shared.process).1 lists.heap))) := by
  have hfits := h.fits t
  rw [ht] at hfits
  obtain ⟨hfilled, hmeasured⟩ := hfits
  have hstorage : lists.pool.storage = m.storage := hfilled.ok.run.storage_eq
  have hheld : (PoolThread.held ∘ threads) t = some m := congrArg PoolThread.held ht
  have hm : m ∈ shared.process.mappings := h.owned.live t m hheld
  obtain ⟨slotted, hprocess⟩ := h.process
  obtain ⟨hmappings, hprocess'⟩ := hprocess.release hm
  have hrelease : (lists.pool.release shared.process).2 =
      (releaseDownwardPoolStorage m.storage shared.process).2 := by
    rw [← hstorage]
    rfl
  refine h.update ⟨_, hrelease ▸ hprocess'⟩ ?_ (h.slots_update ht rfl) (fun _ _ => ⟨rfl, rfl⟩)
    ⟨?_, ⟨m, heapOk_of_ok hfilled.ok hfilled.fault⟩, hfilled.sequence, hmeasured⟩
  · have hset : {m' | m' ∈ (lists.pool.release shared.process).2.mappings} =
        {m' | m' ∈ shared.process.mappings} \ {m} := by
      ext m'
      rw [Set.mem_ofPred_eq, hrelease, hmappings, List.mem_filter, Set.mem_sdiff,
        Set.mem_singleton_iff, Set.mem_ofPred_eq, decide_eq_true_eq]
      refine and_congr_right fun hm' => not_congr ⟨hprocess.eq_of_begin hm' hm, ?_⟩
      rintro rfl
      rfl
    rw [hset]
    exact h.owned.drop hheld
  · exact (Pool.release_spec (.downward lists.pool) shared.process).1

/-! ## Every step -/

/-- A call on the list that does not fault. -/
theorem Inv.call (h : Inv page layout n shared threads) (ht : threads t = .running place)
    {op : ListOp UIntPtr Unit (BitVec 32)} {lists' : PoolLists (BitVec 32)}
    (g : PoolLists (BitVec 32) → Place) (hnext : lists.next layout id op = some lists')
    (hfault : lists'.fault = none) (hheld : (g lists').held = place.held)
    (hpc : (g lists').guardPc = place.guardPc)
    (hfits : (g lists').Fits page layout n (shared.used t) (shared.usable t))
    (hleft : (g lists').left n < place.left n) :
    StepsTo (Inv page layout n) (Place.left n) threads t place
      (ThreadLocalPools.call layout lists op g shared) := by
  have hcall : ThreadLocalPools.call layout lists op g shared =
      some (.goesOn (g lists'), shared) := by
    rw [ThreadLocalPools.call, hnext, Option.map_some, hfault]
    rfl
  exact .goesOn hcall (h.own ht rfl rfl hheld hpc (fun _ _ => ⟨rfl, rfl⟩) hfits) hleft

/-- A load or a store of the registry. -/
theorem Inv.accesses (h : Inv page layout n shared threads) (g : GuardPc → Place)
    (ht : threads t = .running (g pc)) (hpc : ∀ pc, (g pc).guardPc = pc)
    {entries : ℕ → PoolRegistryEntry} {pc' : GuardPc}
    (hstep : guardStep shared.entries pc = some (entries, pc'))
    (hheld : (g pc').held = (g pc).held)
    (hfits : (g pc').Fits page layout n (shared.used t) (shared.usable t))
    (hleft : pc'.stepsLeft < pc.stepsLeft → (g pc').left n < (g pc).left n) :
    StepsTo (Inv page layout n) (Place.left n) threads t (g pc)
      (ThreadLocalPools.access pc g shared) := by
  have hguard : (PoolThread.guardPc ∘ threads) t = pc := 
    (congrArg PoolThread.guardPc ht).trans (hpc pc)
  have haccess : ThreadLocalPools.access pc g shared =
      some (.goesOn (g pc'), { shared with entries := entries }) := by
    rw [ThreadLocalPools.access, hstep]
    rfl
  have hbounds : pc.InBounds := hguard ▸ h.slots.bounds t
  have hplace : guardStep shared.entries (g pc).guardPc = some (entries, pc') := by
    rwa [hpc pc]
  exact .goesOn haccess (h.access ht hplace hheld (hpc pc') hfits)
    (hleft (GuardPc.stepsLeft_step hbounds hstep))

/-- What holds of a thread that runs. -/
theorem Inv.fits_running {n : ℕ} (h : Inv page layout n shared threads)
    (ht : threads t = .running place) :
    place.Fits page layout n (shared.used t) (shared.usable t) := by
  have hfits := h.fits t
  rwa [ht] at hfits

/-- The step of thread `t` at `place` is defined and does not end the process; it keeps the
invariant, and is one of those that the thread has left. -/
abbrev Steps (page : ℕ) (layout : NodeLayout) (nodeCount storagePerThread : SizeT)
    (shared : Shared) (threads : ℕ → PoolThread) (t : ℕ) (os : Os) (place : Place) : Prop :=
  StepsTo (Inv page layout nodeCount.toNat) (Place.left nodeCount.toNat) threads t place
    ((function layout nodeCount storagePerThread).step t place os shared)

theorem Inv.step_mapping
    (hbytes : storagePerThread.toNat = nodeCount.toNat * layout.nodeSize.toNat)
    (hround : storagePerThread.toNat + (page - 1) < 2 ^ 64)
    (hguard : layout.nodeSize.toNat + (page - 1) < 2 ^ 64)
    (h : Inv page layout nodeCount.toNat shared threads) (ht : threads t = .running .mapping)
    (hos : Answers page shared os) :
    Steps page layout nodeCount storagePerThread shared threads t os .mapping := by
  rcases hmake : DownwardPool.make os storagePerThread layout.nodeSize shared.process with
    ⟨e | pool, process⟩
  · refine .ends ?_ (h.refuse ht hmake)
    simp only [function, hmake]
  · obtain ⟨m, hmappings, hinv⟩ := h.map hos hbytes hround hguard ht hmake
    refine .goesOn ?_ hinv ?_
    · simp only [function, hmake, hmappings, List.head?_cons, Option.map_some]
    · simp only [Place.left, GuardPc.stepsLeft]
      omega

theorem Inv.step_registering {m : Mapping} {pool : DownwardPool} {pc : GuardPc}
    (h : Inv page layout nodeCount.toNat shared threads)
    (ht : threads t = .running (.registering m pool pc)) :
    Steps page layout nodeCount storagePerThread shared threads t os (.registering m pool pc) := by
  obtain ⟨hroom, hfresh, hpc⟩ := h.fits_running ht
  rcases hpc.step shared.entries with rfl | ⟨entries, pc', hstep, hpc'⟩
  · refine .goesOn rfl (h.own ht rfl rfl rfl rfl
      (fun _ _ => ⟨rfl, rfl⟩) ⟨hroom, hfresh⟩) ?_
    simp only [Place.left]
    omega
  · have hne : ∀ guard, pc ≠ .registered guard := by
      rintro guard rfl
      cases hstep
    have hfunction : (function layout nodeCount storagePerThread).step t (.registering m pool pc)
        os shared = ThreadLocalPools.access pc (.registering m pool) shared := by
      cases pc <;> first | rfl | exact absurd rfl (hne _)
    rw [Steps, hfunction]
    exact h.accesses (.registering m pool) ht (fun _ => rfl) hstep rfl ⟨hroom, hfresh, hpc'⟩
      fun hlt => Nat.add_lt_add_left hlt _

theorem Inv.step_constructing {m : Mapping} {pool : DownwardPool}
    (h : Inv page layout nodeCount.toNat shared threads)
    (ht : threads t = .running (.constructing m pool)) :
    Steps page layout nodeCount storagePerThread shared threads t os (.constructing m pool) := by
  have hfits := h.fits_running ht
  obtain ⟨lists, hnext, hfilled⟩ := hfits.2.construct hfits.1
  refine h.call ht (.filling m · 0) hnext hfilled.fault rfl rfl ⟨Nat.zero_le _, hfilled⟩ ?_
  simp only [Place.left]
  omega

theorem Inv.step_filling {m : Mapping} {lists : PoolLists (BitVec 32)} {i : ℕ}
    (hpage : layout.nodeAlignment.toNat ≤ page)
    (h : Inv page layout nodeCount.toNat shared threads)
    (ht : threads t = .running (.filling m lists i)) :
    Steps page layout nodeCount storagePerThread shared threads t os (.filling m lists i) := by
  obtain ⟨hle, hfilled⟩ := h.fits_running ht
  by_cases hend : i = nodeCount.toNat
  · subst hend
    refine .goesOn (if_pos rfl) (h.own ht rfl rfl rfl rfl
      (fun _ _ => ⟨rfl, rfl⟩) hfilled) ?_
    simp only [Place.left]
    omega
  · have hlt : i < nodeCount.toNat := lt_of_le_of_ne hle hend
    obtain ⟨lists', hnext, hfilled'⟩ := hfilled.push (v := BitVec.ofNat 32 i) hpage
      (Nat.mul_le_mul_right _ (Nat.succ_le_of_lt hlt))
    have hfunction : (function layout nodeCount storagePerThread).step t (.filling m lists i)
        os shared = ThreadLocalPools.call layout lists
          (.pushFront 0 (.value (BitVec.ofNat 32 i)) 0) (.filling m · (i + 1)) shared :=
      if_neg hend
    rw [Steps, hfunction]
    refine h.call ht (.filling m · (i + 1)) hnext hfilled'.fault rfl rfl
      ⟨Nat.succ_le_of_lt hlt, hfilled'⟩ ?_
    simp only [Place.left]
    omega

theorem Inv.step_measuring {m : Mapping} {lists : PoolLists (BitVec 32)}
    (h : Inv page layout nodeCount.toNat shared threads)
    (ht : threads t = .running (.measuring m lists)) (hos : Answers page shared os) :
    Steps page layout nodeCount storagePerThread shared threads t os (.measuring m lists) := by
  have hfits := h.fits_running ht
  refine .goesOn rfl (h.own ht rfl rfl rfl rfl (fun u hne =>
    ⟨Function.update_of_ne hne .., Function.update_of_ne hne ..⟩) ⟨hfits, ?_⟩) ?_
  · dsimp only
    rw [Function.update_self, Function.update_self]
    have hused := hfits.usedBytes
    exact ⟨hused, hused.trans_le (hfits.usableBytes hos.1 hos.2.1)⟩
  · simp only [Place.left]
    omega

theorem Inv.step_releasingNodes {m : Mapping} {lists : PoolLists (BitVec 32)}
    (h : Inv page layout nodeCount.toNat shared threads)
    (ht : threads t = .running (.releasingNodes m lists)) :
    Steps page layout nodeCount storagePerThread shared threads t os
      (.releasingNodes m lists) := by
  obtain ⟨hfilled, hmeasured⟩ := h.fits_running ht
  obtain ⟨lists', hnext, hfilled'⟩ := hfilled.releaseNodes
  have hunregister : unregisterPc m = .unregisterLoad m.guard 0 :=
    if_neg hfilled.room.guards.begin_ne
  have hstep : (function layout nodeCount storagePerThread).step t (.releasingNodes m lists) os
      shared = some (.goesOn (.unregistering m lists' (.unregisterLoad m.guard 0)), shared) := by
    change ThreadLocalPools.call layout lists _ _ shared = _
    rw [ThreadLocalPools.call, hnext, Option.map_some, hfilled'.fault, hunregister]
    rfl
  refine .goesOn hstep (h.unregister ht ⟨hfilled', hmeasured, rfl⟩) ?_
  simp only [Place.left, GuardPc.stepsLeft]
  omega

theorem Inv.step_unregistering {m : Mapping} {lists : PoolLists (BitVec 32)} {pc : GuardPc}
    (h : Inv page layout nodeCount.toNat shared threads)
    (ht : threads t = .running (.unregistering m lists pc)) :
    Steps page layout nodeCount storagePerThread shared threads t os
      (.unregistering m lists pc) := by
  obtain ⟨hfilled, hmeasured, hpc⟩ := h.fits_running ht
  rcases hpc.step shared.entries with rfl | ⟨entries, pc', hstep, hpc'⟩
  · refine .goesOn rfl (h.own ht rfl rfl rfl rfl
      (fun _ _ => ⟨rfl, rfl⟩) ⟨hfilled, hmeasured⟩) ?_
    simp only [Place.left]
    omega
  · have hne : pc ≠ .idle := by
      rintro rfl
      cases hstep
    have hfunction : (function layout nodeCount storagePerThread).step t
        (.unregistering m lists pc) os shared =
          ThreadLocalPools.access pc (.unregistering m lists) shared := by
      cases pc <;> first | rfl | exact absurd rfl hne
    rw [Steps, hfunction]
    exact h.accesses (.unregistering m lists) ht (fun _ => rfl) hstep rfl
      ⟨hfilled, hmeasured, hpc'⟩ fun hlt => Nat.add_lt_add_left hlt _

theorem Inv.step_leaving {pool : DownwardPool} {heap : NodeHeap UIntPtr Unit (BitVec 32)}
    (h : Inv page layout nodeCount.toNat shared threads)
    (ht : threads t = .running (.leaving pool heap)) :
    Steps page layout nodeCount storagePerThread shared threads t os (.leaving pool heap) := by
  obtain ⟨hstorage, ⟨m, hheap⟩, hsequence, hmeasured⟩ := h.fits_running ht
  have haccepts : heap.acceptsOp (.destroy 0) = true := by
    have hsome := hheap.lists 0
    rw [hsequence] at hsome
    exact hsome
  obtain ⟨heap', hrun, -⟩ := hheap.call haccepts rfl (by
    intro i hpop
    cases hpop)
  have hprocess : (pool.release shared.process).2 = shared.process := by
    change (releaseDownwardPoolStorage pool.storage shared.process).2 = _
    rw [hstorage, release_empty]
  have hstep : (function layout nodeCount storagePerThread).step t (.leaving pool heap) os
      shared = some (.ends (.ok ()), shared) := by
    simp only [function, hrun, hprocess]
  exact .ends hstep (h.own ht rfl rfl rfl rfl (fun _ _ => ⟨rfl, rfl⟩) hmeasured)

/-- **Every step of a thread.** -/
theorem Inv.step (hpage : layout.nodeAlignment.toNat ≤ page)
    (hbytes : storagePerThread.toNat = nodeCount.toNat * layout.nodeSize.toNat)
    (hround : storagePerThread.toNat + (page - 1) < 2 ^ 64)
    (hguard : layout.nodeSize.toNat + (page - 1) < 2 ^ 64)
    (h : Inv page layout nodeCount.toNat shared threads) (ht : threads t = .running place)
    (hos : Answers page shared os) :
    Steps page layout nodeCount storagePerThread shared threads t os place := by
  cases place with
  | mapping => exact h.step_mapping hbytes hround hguard ht hos
  | registering m pool pc => exact h.step_registering ht
  | constructing m pool => exact h.step_constructing ht
  | filling m lists i => exact h.step_filling hpage ht
  | measuring m lists => exact h.step_measuring ht hos
  | releasingNodes m lists => exact h.step_releasingNodes ht
  | unregistering m lists pc => exact h.step_unregistering ht
  | unmapping m lists =>
    refine .goesOn rfl (h.unmap ht) ?_
    simp only [Place.left]
    omega
  | leaving pool heap => exact h.step_leaving ht

/-! ## Every run -/

theorem start_inv (page n : ℕ) (layout : NodeLayout) :
    Inv page layout n start fun _ => .absent where
  process := ⟨[], fun m hm => (by cases hm), .nil, .nil, .slnil, fun _ h => by cases h⟩
  owned := by
    have hset : {m | m ∈ start.process.mappings} = ∅ :=
      Set.eq_empty_of_forall_notMem fun m hm => by cases hm
    rw [hset]
    exact .empty
  slots := .start fun _ => rfl
  fits _ := trivial

/-- The threads of the benchmark keep the invariant. -/
theorem function_keeps (hpage : layout.nodeAlignment.toNat ≤ page)
    (hbytes : storagePerThread.toNat = nodeCount.toNat * layout.nodeSize.toNat)
    (hround : storagePerThread.toNat + (page - 1) < 2 ^ 64)
    (hguard : layout.nodeSize.toNat + (page - 1) < 2 ^ 64) (threadCount : ℕ) :
    (function layout nodeCount storagePerThread).Keeps threadCount (Answers page)
      (Inv page layout nodeCount.toNat) (Place.left nodeCount.toNat) where
  create _ h ht := h.own ht rfl rfl rfl rfl (fun _ _ => ⟨rfl, rfl⟩) trivial
  step h hos ht := h.step hpage hbytes hround hguard ht hos

/-- Without a thread that runs there is no mapping, and no slot of the registry is taken. -/
theorem Inv.released (h : Inv page layout n shared threads)
    (hover : ∀ t place, threads t ≠ .running place) :
    shared.process.mappings = [] ∧ ∀ i, (shared.entries i).guardBegin = 0 := by
  constructor
  · rw [List.eq_nil_iff_forall_not_mem]
    intro m hm
    obtain ⟨t, ht⟩ := h.owned.owner m hm
    cases hthread : threads t with
    | running place => exact hover t place hthread
    | absent | ended result =>
      rw [Function.comp_apply, hthread] at ht
      cases ht
  · intro i
    by_contra hi
    obtain ⟨-, t, ht⟩ := h.slots.slots i hi
    cases hthread : threads t with
    | running place => exact hover t place hthread
    | absent | ended result =>
      rw [Function.comp_apply, hthread] at ht
      exact ht

/-- The sum of the used bytes of pools that are all full. -/
theorem toNat_usedStorage {bytes threadCount : ℕ}
    (h : ∀ t < threadCount, (shared.used t).toNat = bytes) :
    (poolStats shared threadCount).usedStorage.toNat = threadCount * bytes % 2 ^ 64 := by
  induction threadCount with
  | zero => rw [Nat.zero_mul]; rfl
  | succ threadCount ih =>
    have hlast := h threadCount (Nat.lt_succ_self _)
    have hsum := ih fun t ht => h t (Nat.lt_succ_of_lt ht)
    have hstats : (poolStats shared (threadCount + 1)).usedStorage =
        (poolStats shared threadCount).usedStorage + shared.used threadCount := by
      rw [poolStats, List.range_succ, List.foldl_append]
      rfl
    rw [hstats, BitVec.toNat_add, hsum, hlast, Nat.mod_add_mod, Nat.succ_mul]

/-- **The threads with pools of their own.** Whatever the system answers to them, and in every order
of their steps: no construction of a node faults, and each list holds the numbers that its thread
has pushed. When `run_threads` is over and the process is not, also when a construction has been
refused and its exception has been thrown again, no pool has left its mapping behind or its guard
in the registry; when it has returned, the used bytes add up to the storage that was required.
Until it is over, the caller or a thread can move, and the steps of all are bounded. -/
theorem thread_local_pools_exact {page : ℕ} {layout : NodeLayout}
    (hpage : layout.nodeAlignment.toNat ≤ page) {nodeCount storagePerThread total : SizeT}
    {threadCount : BitVec 32} (hreq : requiredStorage layout nodeCount = .ok storagePerThread)
    (htotal : nodeStorageRequired layout nodeCount threadCount = .ok total)
    (hround : storagePerThread.toNat + (page - 1) < 2 ^ 64)
    (hguard : layout.nodeSize.toNat + (page - 1) < 2 ^ 64)
    {ls : List (RunThreads.Label Os)} {s : RunThreads Shared Place PoolError}
    (hanswers : Along (RunThreads.next (function layout nodeCount storagePerThread)
      threadCount.toNat) (RunThreads.Answered (Answers page)) (RunThreads.start start) ls)
    (hrun : run (RunThreads.next (function layout nodeCount storagePerThread) threadCount.toNat)
      (RunThreads.start start) ls = some s) :
    s.caller ≠ .crashed ∧
    (∀ t m lists i, s.threads t = .running (.filling m lists i) →
      lists.heap.sequences 0 = some (filled i)) ∧
    (s.caller.Over → s.caller ≠ .terminated →
      s.shared.process.mappings = [] ∧ ∀ i, (s.shared.entries i).guardBegin = 0) ∧
    (s.caller = .returned → (poolStats s.shared threadCount.toNat).usedStorage = total ∧
      ∀ t < threadCount.toNat, (s.shared.used t).toNat ≤ (s.shared.usable t).toNat) ∧
    (¬ s.caller.Over → ∀ os, Answers page s.shared os →
      ∃ l, (l = .caller true ∨ ∃ t, l = .thread t os) ∧
        (RunThreads.next (function layout nodeCount storagePerThread) threadCount.toNat s
          l).isSome) ∧
    ls.length ≤ 3 * threadCount.toNat + 4 +
      threadCount.toNat * (nodeCount.toNat + 2 * kMaxRegisteredPools + 15) := by
  have hbytes := requiredStorage_ok hreq
  have hkeeps := function_keeps hpage hbytes hround hguard threadCount.toNat
  have hstart := start_inv page nodeCount.toNat layout
  obtain ⟨hok, hinv, hcrashed⟩ := RunThreads.Kept.run hkeeps hstart hanswers hrun
  refine ⟨hcrashed, fun t m lists i ht => ?_, fun hover hterminated => ?_, fun hreturned => ?_,
    fun hover os hos => ?_, ?_⟩
  · have hfits := hinv.fits t
    rw [ht] at hfits
    exact hfits.2.sequence
  · have hgone : s.caller.gone = false := by
      cases hcaller : s.caller <;> first | rfl | exact absurd hcaller ‹_›
    exact hinv.released fun t place => hok.not_running hover hgone
  · have hmeasured : ∀ t < threadCount.toNat,
        Measured (nodeCount.toNat * layout.nodeSize.toNat) (s.shared.used t)
          (s.shared.usable t) := by
      intro t ht
      have hpassed := hok.passed
      rw [hreturned] at hpassed
      have hfits := hinv.fits t
      rw [hpassed t ht] at hfits
      exact hfits
    refine ⟨BitVec.eq_of_toNat_eq ?_, fun t ht => (hmeasured t ht).2⟩
    have hsum : total.toNat =
        threadCount.toNat * (nodeCount.toNat * layout.nodeSize.toNat) := by
      rw [nodeStorageRequired_ok htotal, Nat.mul_comm nodeCount.toNat, Nat.mul_assoc]
    rw [toNat_usedStorage fun t ht => (hmeasured t ht).1, ← hsum, Nat.mod_eq_of_lt total.isLt]
  · exact RunThreads.Kept.exists_next hkeeps ⟨hok, hinv, hcrashed⟩ hover os hos
  · exact RunThreads.run_length_le hkeeps hstart (nodeCount.toNat + 2 * kMaxRegisteredPools + 14)
      (fun _ _ => le_rfl) hanswers hrun

/-- A system that refuses every mapping. -/
def refusing : Os where
  pageSize := 4096
  mmap _ := none
  mprotect _ _ := true
  errno := 12

theorem answers_refusing (shared : Shared) : Answers 4096 shared refusing :=
  ⟨⟨by decide, ⟨12, rfl⟩, rfl, fun _ _ => nofun, fun _ _ => nofun, fun _ _ => nofun⟩, rfl,
    rfl, fun _ _ => nofun, fun _ _ => nofun⟩

/-- Two threads with a node each, of which the second gets no mapping. -/
def secondRefused : List (RunThreads.Label Os) :=
  .caller true :: .caller true :: .thread 0 Os.fixed ::
    ([.caller true, .thread 1 refusing, .caller true] ++ List.replicate 15 (.thread 0 refusing) ++
      List.replicate 5 (.caller true))

/-- The exception of the second thread is thrown again, and the pool of the first is gone. -/
theorem thread_local_pools_exact_secondRefused :
    ∃ s, run (RunThreads.next (function NodeLayout.int 1 16) 2) (RunThreads.start start)
        secondRefused = some s ∧
      s.caller = .threw (.systemError 12 "mmap failed") ∧ s.shared.process.mappings = [] ∧
      ∀ i, (s.shared.entries i).guardBegin = 0 := by
  have hanswers : Along (RunThreads.next (function NodeLayout.int 1 16) 2)
      (RunThreads.Answered (Answers 4096)) (RunThreads.start start) secondRefused := by
    refine ⟨trivial, fun s₁ h₁ => ⟨trivial, fun s₂ h₂ => ⟨?_, fun s₃ _ =>
      Along.of_forall fun l hl s => ?_⟩⟩⟩
    · cases h₁
      cases h₂
      refine ⟨Os.fixed_lawful, rfl, rfl, Os.fixed_lawful.mmap_ne_zero, fun _ _ _ m hm => ?_⟩
      cases hm
    · simp only [List.mem_append, List.mem_cons, List.not_mem_nil, or_false,
        List.mem_replicate] at hl
      rcases hl with ((rfl | rfl | rfl) | ⟨-, rfl⟩) | ⟨-, rfl⟩
      all_goals first | trivial | exact answers_refusing _
  have hcaller : (run (RunThreads.next (function NodeLayout.int 1 16) 2)
      (RunThreads.start start) secondRefused).map RunThreads.caller =
        some (.threw (.systemError 12 "mmap failed")) := by
    decide +kernel
  obtain ⟨s, hrun, hthrew⟩ := Option.map_eq_some_iff.mp hcaller
  obtain ⟨-, -, hreleased, -⟩ := thread_local_pools_exact (by decide)
    (show requiredStorage NodeLayout.int 1 = .ok 16 from rfl)
    (show nodeStorageRequired NodeLayout.int 1 2 = .ok 32 from rfl) (by decide) (by decide)
    hanswers hrun
  obtain ⟨hmappings, hslots⟩ := hreleased (by rw [hthrew]; trivial) (by rw [hthrew]; exact nofun)
  exact ⟨s, hrun, hthrew, hmappings, hslots⟩

end ThreadLocalPools

end Doost.Benchmarks
