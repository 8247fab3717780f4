import Mathlib.Data.List.Nodup
import Doost.Foundations.SoleOwners
import Doost.Foundations.Transition
import Doost.Pools.GuardRegistry
import Doost.Pools.Nonblocking

/-!
# Pool objects and their mappings

Any number of pool objects of one process, constructed, moved, used, released and destroyed one
operation at a time (`Objects.next`). A move copies the storage and the cursor field by field and
clears those of the pool that is moved from; `release_downward_pool_storage` takes the guard out of
the registry, unmaps, and clears the storage.

`Process.Ok` is what holds of the process: the live mappings lie apart, the calls of `mmap` and
`munmap` so far account for them, and the taken slots of the registry are the guards of the live
mappings that found a free slot. `Objects.Ok` adds that each live mapping is the storage of exactly
one pool. `mappings_owned_once` is the result about every run.
-/

namespace Doost.Pools

open SoleOwners Transition

/-! ## The types of pools -/

inductive Kind
  | downward
  | mutex
  | nonblocking
  deriving DecidableEq, Repr

/-- A pool object. -/
inductive Pool
  | downward (pool : DownwardPool)
  | mutex (pool : MutexDownwardPool)
  | nonblocking (pool : NonblockingDownwardPool)
  deriving DecidableEq, Repr

namespace Pool

/-- The constructor of each type. -/
def make (kind : Kind) (os : Os) (usableBytes maxAllocSize : SizeT) (process : Process) :
    Except PoolError Pool × Process :=
  match kind with
  | .downward =>
    let (pool, process) := DownwardPool.make os usableBytes maxAllocSize process
    (pool.map downward, process)
  | .mutex =>
    let (pool, process) := MutexDownwardPool.make os usableBytes maxAllocSize process
    (pool.map mutex, process)
  | .nonblocking =>
    let (pool, process) := NonblockingDownwardPool.make os usableBytes maxAllocSize process
    (pool.map nonblocking, process)

def storage : Pool → DownwardPoolStorage
  | downward pool => pool.storage
  | mutex m => m.pool.storage
  | nonblocking pool => pool.storage

def cursor : Pool → UIntPtr
  | downward pool => pool.cursor
  | mutex m => m.pool.cursor
  | nonblocking pool => pool.cursor

def allocate (bytes alignment : SizeT) : Pool → Pool
  | downward pool => downward (pool.allocate bytes alignment).2
  | mutex m => mutex (m.allocate bytes alignment).2
  | nonblocking pool => nonblocking (pool.allocate bytes alignment).2

def reset : Pool → Pool
  | downward pool => downward pool.reset
  | mutex m => mutex m.reset
  | nonblocking pool => nonblocking pool.reset

def release (process : Process) : Pool → Pool × Process
  | downward pool => (downward (pool.release process).1, (pool.release process).2)
  | mutex m => (mutex (m.release process).1, (m.release process).2)
  | nonblocking pool => (nonblocking (pool.release process).1, (pool.release process).2)

/-- The move constructor of the types that have one. -/
def moveConstruct : Pool → Option (Pool × Pool)
  | downward other => some (downward other.moveConstruct.1, downward other.moveConstruct.2)
  | mutex _ => none
  | nonblocking other =>
    some (nonblocking other.moveConstruct.1, nonblocking other.moveConstruct.2)

/-- The types that have a move assignment. -/
def movable : Pool → Bool
  | mutex _ => false
  | _ => true

/-- The move assignment between two objects of one type. -/
def moveAssign (process : Process) : Pool → Pool → Option ((Pool × Pool) × Process)
  | downward pool, downward other =>
    let ((pool, other), process) := pool.moveAssign other process
    some ((downward pool, downward other), process)
  | nonblocking pool, nonblocking other =>
    let ((pool, other), process) := pool.moveAssign other process
    some ((nonblocking pool, nonblocking other), process)
  | _, _ => none

def usableBytes (os : Os) : Pool → SizeT
  | downward pool => pool.usableBytes os
  | mutex m => m.usableBytes os
  | nonblocking pool => pool.usableBytes os

def usedBytes : Pool → SizeT
  | downward pool => pool.usedBytes
  | mutex m => m.usedBytes
  | nonblocking pool => pool.usedBytes

variable {pool other pool' other' : Pool} {process process' : Process} {os : Os}
  {usableBytes maxAllocSize : SizeT}

/-- A construction is that of the storage. -/
theorem make_eq (kind : Kind) (os : Os) (usableBytes maxAllocSize : SizeT) (process : Process) :
    (make kind os usableBytes maxAllocSize process).2 =
        (makeDownwardPoolStorage os usableBytes maxAllocSize process).2 ∧
      (make kind os usableBytes maxAllocSize process).1.map Pool.storage =
        (makeDownwardPoolStorage os usableBytes maxAllocSize process).1 := by
  rcases hmake : makeDownwardPoolStorage os usableBytes maxAllocSize process with
    ⟨e | pool, process'⟩
  all_goals
    cases kind with
    | downward =>
      simp only [make, DownwardPool.make, hmake]
      exact ⟨trivial, rfl⟩
    | mutex =>
      simp only [make, MutexDownwardPool.make, DownwardPool.make, hmake]
      exact ⟨trivial, rfl⟩
    | nonblocking =>
      simp only [make, NonblockingDownwardPool.make, hmake]
      exact ⟨trivial, rfl⟩

theorem storage_allocate (bytes alignment : SizeT) :
    (pool.allocate bytes alignment).storage = pool.storage := by
  cases pool <;> rfl

theorem storage_reset : pool.reset.storage = pool.storage := by
  cases pool <;> rfl

theorem release_spec (pool : Pool) (process : Process) :
    (pool.release process).1.storage = .empty ∧ (pool.release process).1.cursor = 0 ∧
      (pool.release process).2 = (releaseDownwardPoolStorage pool.storage process).2 := by
  have hempty : (releaseDownwardPoolStorage pool.storage process).1 = .empty := by
    unfold releaseDownwardPoolStorage
    split <;> rfl
  cases pool <;> exact ⟨hempty, rfl, rfl⟩

theorem moveConstruct_spec (h : other.moveConstruct = some (pool', other')) :
    pool'.storage = other.storage ∧ other'.storage = .empty ∧ other'.cursor = 0 := by
  cases other <;> cases h <;> exact ⟨rfl, rfl, rfl⟩

theorem moveAssign_spec (h : pool.moveAssign process other = some ((pool', other'), process')) :
    pool'.storage = other.storage ∧ other'.storage = .empty ∧ other'.cursor = 0 ∧
      process' = (releaseDownwardPoolStorage pool.storage process).2 := by
  cases pool <;> cases other <;> cases h <;> exact ⟨rfl, rfl, rfl, rfl⟩

end Pool

/-! ## The process -/

/-- The mappings lie apart. -/
def Mapping.Apart (m m' : Mapping) : Prop := m.hi ≤ m'.lo ∨ m'.hi ≤ m.lo

/-- The entry of the mapping's guard in the registry. -/
def Mapping.guard (m : Mapping) : PoolRegistryEntry :=
  ⟨m.mappingBegin, m.mappingBegin + m.guardBytes⟩

/-- The mappings that the calls so far have made: a call of `mmap` that succeeds is followed by the
call of `mprotect` for the guard. The calls stand with the latest first. -/
def mapped : List OsCall → List DownwardPoolStorage
  | .mprotect address _ :: .mmap bytes :: calls => ⟨address, bytes⟩ :: mapped calls
  | _ :: calls => mapped calls
  | [] => []

/-- The arguments of the calls of `munmap` so far. -/
def unmapped : List OsCall → List DownwardPoolStorage
  | .munmap address bytes :: calls => ⟨address, bytes⟩ :: unmapped calls
  | _ :: calls => unmapped calls
  | [] => []

/-- A pool constructed now would find a free slot. -/
def Process.HasFreeSlot (process : Process) : Prop :=
  ∃ registry ∈ process.poolRegistry, Pools.HasFreeSlot registry

instance (process : Process) : Decidable process.HasFreeSlot :=
  inferInstanceAs (Decidable (∃ registry ∈ process.poolRegistry, Pools.HasFreeSlot registry))

/-- What holds of a process; `slotted` are the live mappings whose guards found a free slot. -/
structure Process.Ok (process : Process) (slotted : List Mapping) : Prop where
  nonempty : ∀ m ∈ process.mappings, m.mappingBegin ≠ 0 ∧ m.mappingBytes ≠ 0
  apart : process.mappings.Pairwise Mapping.Apart
  ledger : (mapped process.calls).Perm
    (unmapped process.calls ++ process.mappings.map Mapping.storage)
  slotted_sublist : slotted.Sublist process.mappings
  registry : ∀ registry, process.poolRegistry = some registry →
    (occupied registry).Perm (slotted.map Mapping.guard)

/-- What `mmap` answers: no mapping of no bytes, and a nonzero range apart from the live ones. -/
structure Os.Answers (os : Os) (process : Process) : Prop where
  mmap_zero : os.mmap 0 = none
  mmap_ne_zero : ∀ bytes begin, os.mmap bytes = some begin → begin ≠ 0
  mmap_apart : ∀ bytes begin, os.mmap bytes = some begin → ∀ m ∈ process.mappings,
    begin.toNat + bytes.toNat ≤ m.lo ∨ m.hi ≤ begin.toNat

variable {process process' : Process} {slotted : List Mapping} {m m' : Mapping} {os : Os}
  {usableBytes maxAllocSize : SizeT} {storage : DownwardPoolStorage}

theorem Mapping.Apart.begin_ne (h : m.Apart m') (hm : m.mappingBytes ≠ 0)
    (hm' : m'.mappingBytes ≠ 0) : m.mappingBegin ≠ m'.mappingBegin := by
  have hpos : ∀ {b : SizeT}, b ≠ 0 → 0 < b.toNat := fun hb =>
    Nat.pos_of_ne_zero fun h => hb (BitVec.eq_of_toNat_eq h)
  have := hpos hm
  have := hpos hm'
  intro heq
  unfold Mapping.Apart Mapping.hi Mapping.lo at h
  rw [heq] at h
  omega

theorem Process.Ok.nodup (h : process.Ok slotted) :
    (process.mappings.map Mapping.mappingBegin).Nodup := by
  rw [List.nodup_iff_pairwise_ne, List.pairwise_map]
  exact h.apart.imp_of_mem fun hm hm' hapart =>
    hapart.begin_ne (h.nonempty _ hm).2 (h.nonempty _ hm').2

/-- No two live mappings have one storage record. -/
theorem Process.Ok.eq_of_begin (h : process.Ok slotted) (hm : m ∈ process.mappings)
    (hm' : m' ∈ process.mappings) (heq : m.mappingBegin = m'.mappingBegin) : m = m' :=
  List.inj_on_of_nodup_map h.nodup hm hm' heq

/-- A construction adds a mapping. -/
theorem Process.Ok.make (h : process.Ok slotted) (hos : os.Answers process)
    (hmake : makeDownwardPoolStorage os usableBytes maxAllocSize process =
      (.ok storage, process')) :
    ∃ m : Mapping, m.storage = storage ∧ process'.mappings = m :: process.mappings ∧
      process'.Ok (if process.HasFreeSlot then m :: slotted else slotted) := by
  simp only [makeDownwardPoolStorage] at hmake
  split at hmake
  · cases hmake
  rename_i pageSize _
  split at hmake
  · cases hmake
  simp only [mapPoolStorage] at hmake
  split at hmake
  · cases hmake
  rename_i begin hmap
  split at hmake
  swap
  · cases hmake
  obtain ⟨hstorage, rfl⟩ := Prod.mk.inj hmake
  obtain rfl := Except.ok.inj hstorage
  have hbegin := hos.mmap_ne_zero _ _ hmap
  have hbytes : roundUp usableBytes pageSize + roundUp maxAllocSize pageSize ≠ 0 := by
    intro hzero
    rw [hzero, hos.mmap_zero] at hmap
    cases hmap
  set m : Mapping :=
    ⟨begin, roundUp usableBytes pageSize + roundUp maxAllocSize pageSize,
      roundUp maxAllocSize pageSize⟩
  have hapart : ∀ m' ∈ process.mappings, m.Apart m' := hos.mmap_apart _ _ hmap
  refine ⟨m, rfl, rfl, ?_, ?_, ?_, ?_, ?_⟩
  · exact List.forall_mem_cons.mpr ⟨⟨hbegin, hbytes⟩, h.nonempty⟩
  · exact List.pairwise_cons.mpr ⟨hapart, h.apart⟩
  · exact (h.ledger.cons _).trans List.perm_middle.symm
  · split
    · exact h.slotted_sublist.cons_cons m
    · exact h.slotted_sublist.cons m
  · intro registry hregistry
    obtain ⟨old, hold, rfl⟩ := Option.map_eq_some_iff.mp hregistry
    have hfree : process.HasFreeSlot ↔ Pools.HasFreeSlot old := by
      simp [Process.HasFreeSlot, hold]
    split
    · rename_i hslot
      refine (occupied_registerPoolGuard hbegin (hfree.mp hslot)).trans ?_
      exact (h.registry old hold).cons _
    · rename_i hslot
      rw [registerPoolGuard_full (hfree.not.mp hslot)]
      exact h.registry old hold

/-- A construction that fails leaves no mapping and no guard. -/
theorem Process.Ok.make_error {e : PoolError} (h : process.Ok slotted)
    (hmake : makeDownwardPoolStorage os usableBytes maxAllocSize process = (.error e, process')) :
    process'.mappings = process.mappings ∧ process'.poolRegistry = process.poolRegistry ∧
      process'.Ok slotted := by
  simp only [makeDownwardPoolStorage] at hmake
  split at hmake
  · obtain ⟨-, rfl⟩ := Prod.mk.inj hmake
    exact ⟨rfl, rfl, h⟩
  split at hmake
  · obtain ⟨-, rfl⟩ := Prod.mk.inj hmake
    exact ⟨rfl, rfl, h⟩
  simp only [mapPoolStorage] at hmake
  split at hmake
  · obtain ⟨-, rfl⟩ := Prod.mk.inj hmake
    exact ⟨rfl, rfl, h.nonempty, h.apart, h.ledger, h.slotted_sublist, h.registry⟩
  split at hmake
  · cases hmake
  · -- the guard could not be protected, and the mapping is unmapped at once
    obtain ⟨-, rfl⟩ := Prod.mk.inj hmake
    exact ⟨rfl, rfl, h.nonempty, h.apart, h.ledger.cons _, h.slotted_sublist, h.registry⟩

/-- Taking the element with a given key out of a list without repeated keys. -/
theorem perm_cons_filter {α β : Type*} [DecidableEq β] {f : α → β} {l : List α} {a : α}
    (hl : (l.map f).Nodup) (ha : a ∈ l) : l.Perm (a :: l.filter fun b => f b ≠ f a) := by
  induction l with
  | nil => cases ha
  | cons b l ih =>
    rw [List.map_cons, List.nodup_cons] at hl
    rcases List.mem_cons.mp ha with rfl | ha
    · rw [List.filter_cons_of_neg (by simp), List.filter_eq_self.mpr]
      intro c hc
      have hne : f c ≠ f a := fun heq => hl.1 (heq ▸ List.mem_map_of_mem hc)
      simpa using hne
    · have hne : f b ≠ f a := fun heq => hl.1 (heq ▸ List.mem_map_of_mem ha)
      rw [List.filter_cons_of_pos (by simpa using hne)]
      exact ((ih hl.2 ha).cons b).trans (List.Perm.swap ..)

/-- The release of a mapping that is live. -/
theorem Process.Ok.release (h : process.Ok slotted) (hm : m ∈ process.mappings) :
    (releaseDownwardPoolStorage m.storage process).2.mappings =
        process.mappings.filter (·.mappingBegin ≠ m.mappingBegin) ∧
      (releaseDownwardPoolStorage m.storage process).2.Ok
        (slotted.filter (·.mappingBegin ≠ m.mappingBegin)) := by
  have hbegin := (h.nonempty m hm).1
  have hnot : m.storage.mappingBegin ≠ 0 := hbegin
  simp only [releaseDownwardPoolStorage, if_neg hnot]
  refine ⟨rfl, fun m' hm' => h.nonempty m' (List.mem_of_mem_filter hm'), h.apart.filter _, ?_,
    h.slotted_sublist.filter _, fun registry hregistry => ?_⟩
  · have hperm := (perm_cons_filter h.nodup hm).map Mapping.storage
    exact h.ledger.trans ((hperm.append_left _).trans List.perm_middle)
  · obtain ⟨old, hold, rfl⟩ := Option.map_eq_some_iff.mp hregistry
    have hguards : ((occupied old).map PoolRegistryEntry.guardBegin).Nodup := by
      have hperm := (h.registry old hold).map PoolRegistryEntry.guardBegin
      rw [hperm.nodup_iff, List.map_map]
      exact h.nodup.sublist (h.slotted_sublist.map Mapping.mappingBegin)
    rw [unregisterPoolGuard, if_neg hnot, occupied_clearPoolGuard hnot hguards]
    have hfilter := (h.registry old hold).filter fun entry => entry.guardBegin ≠ m.mappingBegin
    rwa [List.filter_map] at hfilter

/-- The release of an empty storage does nothing. -/
theorem release_empty (process : Process) :
    (releaseDownwardPoolStorage .empty process).2 = process := by
  have hsame : process.poolRegistry.map (unregisterPoolGuard 0) = process.poolRegistry := by
    have hid : unregisterPoolGuard 0 = id := by
      funext registry
      exact if_pos rfl
    rw [hid, Option.map_id, id]
  simp only [releaseDownwardPoolStorage, DownwardPoolStorage.empty, hsame, if_pos]

/-! ## The objects -/

/-- The process and its pool objects, by name. -/
structure Objects where
  process : Process
  pools : ℕ → Option Pool

namespace Objects

/-- One operation on one or two of the objects. `os` is what the operating system answers to a
construction. -/
inductive Op
  | construct (kind : Kind) (id : ℕ) (os : Os) (usableBytes maxAllocSize : SizeT)
  | moveConstruct (id other : ℕ)
  | moveAssign (id other : ℕ)
  | allocate (id : ℕ) (bytes alignment : SizeT)
  | reset (id : ℕ)
  | release (id : ℕ)
  | destroy (id : ℕ)

/-- A process without pools, with or without the registry of the overflow handler. -/
def start (registry : Option (List PoolRegistryEntry)) : Objects :=
  ⟨⟨[], registry, []⟩, fun _ => none⟩

/-- A change of one object. -/
def modify (s : Objects) (id : ℕ) (f : Pool → Pool) : Option Objects :=
  (s.pools id).map fun pool => { s with pools := Function.update s.pools id (some (f pool)) }

/-- One operation. An operation needs the objects it names, and a construction a name that is
free. -/
def next (s : Objects) : Op → Option Objects
  | .construct kind id os usableBytes maxAllocSize =>
    match s.pools id with
    | some _ => none
    | none =>
      match Pool.make kind os usableBytes maxAllocSize s.process with
      | (.ok pool, process) => some ⟨process, Function.update s.pools id (some pool)⟩
      | (.error _, process) => some { s with process := process }
  | .moveConstruct id other =>
    match s.pools id with
    | some _ => none
    | none => ((s.pools other).bind Pool.moveConstruct).map fun moved => { s with
        pools := Function.update (Function.update s.pools id (some moved.1)) other
          (some moved.2) }
  | .moveAssign id other =>
    match s.pools id, s.pools other with
    | some pool, some from_ =>
      if id = other then if pool.movable then some s else none
      else (pool.moveAssign s.process from_).map fun moved =>
        ⟨moved.2, Function.update (Function.update s.pools id (some moved.1.1)) other
          (some moved.1.2)⟩
    | _, _ => none
  | .allocate id bytes alignment => s.modify id (Pool.allocate bytes alignment)
  | .reset id => s.modify id Pool.reset
  | .release id => (s.pools id).map fun pool =>
      ⟨(pool.release s.process).2, Function.update s.pools id (some (pool.release s.process).1)⟩
  | .destroy id => (s.pools id).map fun pool =>
      ⟨(pool.release s.process).2, Function.update s.pools id none⟩

/-- What the operating system answers to a construction. -/
def Answers (s : Objects) : Op → Prop
  | .construct _ _ os _ _ => os.Answers s.process
  | _ => True

/-- The live mappings whose guards found a free slot when they were made. -/
def noteSlotted (s : Objects) (op : Op) (slotted : List Mapping) : List Mapping :=
  match s.next op with
  | none => slotted
  | some s' =>
    (s'.process.mappings.filter fun m => m ∉ s.process.mappings ∧ s.process.HasFreeSlot) ++
      slotted.filter (· ∈ s'.process.mappings)

end Objects

/-- The storage that the pool holds. -/
def Pool.held (pool : Pool) : Option DownwardPoolStorage :=
  if pool.storage.mappingBegin = 0 then none else some pool.storage

/-- The storage that an object holds, if there is one of that name. -/
def Objects.held (s : Objects) (id : ℕ) : Option DownwardPoolStorage :=
  (s.pools id).bind Pool.held

/-- The storage records of the live mappings. -/
def Process.live (process : Process) : Set DownwardPoolStorage :=
  {storage | ∃ m ∈ process.mappings, m.storage = storage}

/-- What holds between two operations. -/
structure Objects.Ok (s : Objects) (slotted : List Mapping) : Prop where
  process : s.process.Ok slotted
  owned : OwnedOnce s.held s.process.live
  empty : ∀ id pool, s.pools id = some pool → pool.storage.mappingBegin = 0 →
    pool.storage = .empty

section

variable {s s' : Objects} {id other : ℕ} {pool : Pool}

/-- The release of a live mapping takes its storage record away. -/
theorem Process.Ok.live_release (h : process.Ok slotted) (hm : m ∈ process.mappings) :
    (releaseDownwardPoolStorage m.storage process).2.live = process.live \ {m.storage} := by
  obtain ⟨hmappings, -⟩ := h.release hm
  ext storage
  simp only [Process.live, hmappings, Set.mem_ofPred_eq, Set.mem_sdiff, Set.mem_singleton_iff,
    List.mem_filter]
  constructor
  · rintro ⟨m', ⟨hm', hne⟩, rfl⟩
    refine ⟨⟨m', hm', rfl⟩, fun heq => ?_⟩
    have hbegin : m'.mappingBegin = m.mappingBegin :=
      congrArg DownwardPoolStorage.mappingBegin heq
    simp [hbegin] at hne
  · rintro ⟨⟨m', hm', rfl⟩, hne⟩
    refine ⟨m', ⟨hm', ?_⟩, rfl⟩
    have hbegin : m'.mappingBegin ≠ m.mappingBegin := by
      intro heq
      exact hne (congrArg Mapping.storage (h.eq_of_begin hm' hm heq))
    simpa using hbegin

theorem Pool.held_of_empty (h : pool.storage = .empty) : pool.held = none := by
  rw [Pool.held, h]
  rfl

theorem Pool.held_congr {pool' : Pool} (h : pool'.storage = pool.storage) :
    pool'.held = pool.held := by
  rw [Pool.held, Pool.held, h]

namespace Objects

theorem held_eq (h : s.pools id = some pool) : s.held id = pool.held := by
  rw [held, h]
  rfl

theorem held_update (s : Objects) (process : Process) (id : ℕ) (x : Option Pool) :
    Objects.held ⟨process, Function.update s.pools id x⟩ =
      Function.update s.held id (x.bind Pool.held) := by
  funext i
  rcases eq_or_ne i id with rfl | hne
  · simp only [held, Function.update_self]
  · simp only [held, Function.update_of_ne hne]

/-! ## What an operation does -/

theorem next_construct {kind : Kind}
    (hnext : s.next (.construct kind id os usableBytes maxAllocSize) = some s') :
    s.pools id = none ∧
      ((∃ pool process', Pool.make kind os usableBytes maxAllocSize s.process =
          (.ok pool, process') ∧ s' = ⟨process', Function.update s.pools id (some pool)⟩) ∨
        ∃ e process', Pool.make kind os usableBytes maxAllocSize s.process =
          (.error e, process') ∧ s' = { s with process := process' }) := by
  simp only [Objects.next] at hnext
  split at hnext
  · cases hnext
  rename_i hid
  refine ⟨hid, ?_⟩
  split at hnext <;> rename_i hmake <;> obtain rfl := Option.some.inj hnext
  · exact Or.inl ⟨_, _, hmake, rfl⟩
  · exact Or.inr ⟨_, _, hmake, rfl⟩

theorem next_moveConstruct (hnext : s.next (.moveConstruct id other) = some s') :
    s.pools id = none ∧ ∃ from_ pool' from', s.pools other = some from_ ∧
      from_.moveConstruct = some (pool', from') ∧
      s' = { s with pools :=
        Function.update (Function.update s.pools id (some pool')) other (some from') } := by
  simp only [Objects.next] at hnext
  split at hnext
  · cases hnext
  rename_i hid
  obtain ⟨⟨pool', from'⟩, hmove, rfl⟩ := Option.map_eq_some_iff.mp hnext
  obtain ⟨from_, hother, hmove⟩ := Option.bind_eq_some_iff.mp hmove
  exact ⟨hid, from_, pool', from', hother, hmove, rfl⟩

theorem next_moveAssign (hnext : s.next (.moveAssign id other) = some s') :
    id = other ∧ s' = s ∨ id ≠ other ∧ ∃ pool from_ pool' from' process',
      s.pools id = some pool ∧ s.pools other = some from_ ∧
      pool.moveAssign s.process from_ = some ((pool', from'), process') ∧
      s' = ⟨process',
        Function.update (Function.update s.pools id (some pool')) other (some from')⟩ := by
  simp only [Objects.next] at hnext
  split at hnext
  · rename_i pool from_ hid hother
    split at hnext
    · rename_i heq
      split at hnext <;> cases hnext
      exact Or.inl ⟨heq, rfl⟩
    · rename_i hne
      obtain ⟨⟨⟨pool', from'⟩, process'⟩, hmove, rfl⟩ := Option.map_eq_some_iff.mp hnext
      exact Or.inr ⟨hne, pool, from_, pool', from', process', hid, hother, hmove, rfl⟩
  · cases hnext

theorem next_release (hnext : s.next (.release id) = some s') :
    ∃ pool, s.pools id = some pool ∧
      s' = ⟨(releaseDownwardPoolStorage pool.storage s.process).2,
        Function.update s.pools id (some (pool.release s.process).1)⟩ := by
  obtain ⟨pool, hid, rfl⟩ := Option.map_eq_some_iff.mp hnext
  rw [(Pool.release_spec pool s.process).2.2]
  exact ⟨pool, hid, rfl⟩

theorem next_destroy (hnext : s.next (.destroy id) = some s') :
    ∃ pool, s.pools id = some pool ∧
      s' = ⟨(releaseDownwardPoolStorage pool.storage s.process).2,
        Function.update s.pools id none⟩ := by
  obtain ⟨pool, hid, rfl⟩ := Option.map_eq_some_iff.mp hnext
  rw [(Pool.release_spec pool s.process).2.2]
  exact ⟨pool, hid, rfl⟩

/-! ## Objects that keep, release or pass on their storage -/

/-- An object whose storage stays as it is. -/
theorem Ok.replace {pool' : Pool} (h : s.Ok slotted) (hid : s.pools id = some pool)
    (hstorage : pool'.storage = pool.storage) :
    Ok { s with pools := Function.update s.pools id (some pool') } slotted := by
  refine ⟨h.process, ?_, fun i p hp hzero => ?_⟩
  · rw [held_update, Option.bind_some, Pool.held_congr hstorage, ← held_eq hid,
      Function.update_eq_self]
    exact h.owned
  · rcases eq_or_ne i id with rfl | hne
    · simp only [Function.update_self] at hp
      obtain rfl := Option.some.inj hp
      rw [hstorage] at hzero ⊢
      exact h.empty i pool hid hzero
    · simp only [Function.update_of_ne hne] at hp
      exact h.empty i p hp hzero

/-- An object that releases its storage, and is then empty or gone. -/
theorem Ok.releaseAt (h : s.Ok slotted) (hid : s.pools id = some pool) {x : Option Pool}
    (hx : ∀ p, x = some p → p.storage = .empty) :
    (∀ m ∈ (releaseDownwardPoolStorage pool.storage s.process).2.mappings,
        m ∈ s.process.mappings) ∧
      Ok ⟨(releaseDownwardPoolStorage pool.storage s.process).2, Function.update s.pools id x⟩
        (slotted.filter
          (· ∈ (releaseDownwardPoolStorage pool.storage s.process).2.mappings)) := by
  have hheld : x.bind Pool.held = none := by
    cases x with
    | none => rfl
    | some p => exact Pool.held_of_empty (hx p rfl)
  have hempty : ∀ i p, Function.update s.pools id x i = some p → p.storage.mappingBegin = 0 →
      p.storage = .empty := by
    intro i p hp hzero
    rcases eq_or_ne i id with rfl | hne
    · rw [Function.update_self] at hp
      exact hx p hp
    · rw [Function.update_of_ne hne] at hp
      exact h.empty i p hp hzero
  have hsub : ∀ m ∈ slotted, m ∈ s.process.mappings := fun m hm =>
    h.process.slotted_sublist.subset hm
  by_cases hzero : pool.storage.mappingBegin = 0
  · -- an empty pool has nothing to release
    have hstorage := h.empty id pool hid hzero
    have hnone : s.held id = none := (held_eq hid).trans (Pool.held_of_empty hstorage)
    have hall : slotted.filter (· ∈ s.process.mappings) = slotted :=
      List.filter_eq_self.mpr fun m hm => decide_eq_true (hsub m hm)
    rw [hstorage, release_empty, hall]
    refine ⟨fun m hm => hm, h.process, ?_, hempty⟩
    rw [held_update, hheld, ← hnone, Function.update_eq_self]
    exact h.owned
  · have hsome : s.held id = some pool.storage := (held_eq hid).trans (if_neg hzero)
    obtain ⟨m, hm, hmstorage⟩ := h.owned.live id _ hsome
    obtain ⟨hmappings, hprocess⟩ := h.process.release hm
    have hlive := h.process.live_release hm
    rw [hmstorage] at hmappings hprocess hlive
    have hfilter : slotted.filter
          (· ∈ (releaseDownwardPoolStorage pool.storage s.process).2.mappings) =
        slotted.filter (·.mappingBegin ≠ m.mappingBegin) := by
      refine List.filter_congr fun m' hm' => ?_
      rw [hmappings]
      simp [hsub m' hm']
    rw [hfilter]
    refine ⟨fun m' hm' => ?_, hprocess, ?_, hempty⟩
    · rw [hmappings] at hm'
      exact List.mem_of_mem_filter hm'
    · rw [held_update, hheld, hlive]
      exact h.owned.drop hsome

/-- An object that hands its storage to one that holds none. -/
theorem Ok.pass {from_ pool' from' : Pool} (h : s.Ok slotted) (hid : s.held id = none)
    (hother : s.pools other = some from_)
    (hpool : pool'.storage = from_.storage) (hfrom : from'.storage = .empty) :
    Ok { s with pools :=
      Function.update (Function.update s.pools id (some pool')) other (some from') } slotted := by
  refine ⟨h.process, ?_, fun i p hp hzero => ?_⟩
  · have hheld := h.owned.pass (j := other) hid
    have hfirst := held_update s s.process id (some pool')
    rw [Option.bind_some, Pool.held_congr hpool, ← held_eq hother] at hfirst
    have hsecond := held_update ⟨s.process, Function.update s.pools id (some pool')⟩ s.process
      other (some from')
    rw [Option.bind_some, Pool.held_of_empty hfrom, hfirst] at hsecond
    rw [hsecond]
    exact hheld
  · simp only at hp
    rcases eq_or_ne i other with rfl | hio
    · rw [Function.update_self] at hp
      obtain rfl := Option.some.inj hp
      exact hfrom
    · rw [Function.update_of_ne hio] at hp
      rcases eq_or_ne i id with rfl | hii
      · rw [Function.update_self] at hp
        obtain rfl := Option.some.inj hp
        rw [hpool] at hzero ⊢
        exact h.empty other from_ hother hzero
      · rw [Function.update_of_ne hii] at hp
        exact h.empty i p hp hzero

/-! ## Every operation -/

/-- A construction that succeeds. -/
theorem Ok.construct {kind : Kind} (h : s.Ok slotted) (hos : os.Answers s.process)
    (hid : s.pools id = none)
    (hmake : Pool.make kind os usableBytes maxAllocSize s.process = (.ok pool, process')) :
    ∃ m : Mapping, m.storage = pool.storage ∧ process'.mappings = m :: s.process.mappings ∧
      m ∉ s.process.mappings ∧
      Ok ⟨process', Function.update s.pools id (some pool)⟩
        (if s.process.HasFreeSlot then m :: slotted else slotted) := by
  obtain ⟨hprocess, hstorage⟩ := Pool.make_eq kind os usableBytes maxAllocSize s.process
  rw [hmake] at hprocess hstorage
  obtain ⟨m, hm, hmappings, hok⟩ := h.process.make hos (Prod.ext hstorage.symm hprocess.symm)
  have hnonzero := hok.nonempty m (by simp [hmappings])
  have hnodup := hok.nodup
  rw [hmappings, List.map_cons, List.nodup_cons] at hnodup
  have hfresh : pool.storage ∉ s.process.live := by
    rintro ⟨m', hm', heq⟩
    rw [← hm] at heq
    have hbegin : m'.mappingBegin = m.mappingBegin :=
      congrArg DownwardPoolStorage.mappingBegin heq
    exact hnodup.1 (hbegin ▸ List.mem_map_of_mem hm')
  have hheld : pool.held = some pool.storage := by
    refine if_neg ?_
    rw [← hm]
    exact hnonzero.1
  have hlive : process'.live = insert pool.storage s.process.live := by
    ext storage
    simp only [Process.live, hmappings, Set.mem_ofPred_eq, Set.mem_insert_iff, List.mem_cons]
    constructor
    · rintro ⟨m', rfl | hm', rfl⟩
      · exact Or.inl hm
      · exact Or.inr ⟨m', hm', rfl⟩
    · rintro (rfl | ⟨m', hm', rfl⟩)
      · exact ⟨m, Or.inl rfl, hm⟩
      · exact ⟨m', Or.inr hm', rfl⟩
  refine ⟨m, hm, hmappings, fun hmem => hnodup.1 (List.mem_map_of_mem hmem), hok, ?_, ?_⟩
  · rw [held_update, Option.bind_some, hheld, hlive]
    refine h.owned.acquire ?_ hfresh
    rw [held, hid]
    rfl
  · intro i p hp hzero
    simp only at hp
    rcases eq_or_ne i id with rfl | hne
    · rw [Function.update_self] at hp
      obtain rfl := Option.some.inj hp
      rw [← hm] at hzero
      exact absurd hzero hnonzero.1
    · rw [Function.update_of_ne hne] at hp
      exact h.empty i p hp hzero

/-- A construction that throws. -/
theorem Ok.construct_error {kind : Kind} {e : PoolError} (h : s.Ok slotted)
    (hmake : Pool.make kind os usableBytes maxAllocSize s.process = (.error e, process')) :
    process'.mappings = s.process.mappings ∧ process'.poolRegistry = s.process.poolRegistry ∧
      process'.Ok slotted := by
  obtain ⟨hprocess, hstorage⟩ := Pool.make_eq kind os usableBytes maxAllocSize s.process
  rw [hmake] at hprocess hstorage
  exact h.process.make_error (Prod.ext hstorage.symm hprocess.symm)

/-- The slotted mappings after a construction. -/
theorem noteSlotted_of_construct {op : Op} (h : s.Ok slotted) (hnext : s.next op = some s')
    (hmappings : s'.process.mappings = m :: s.process.mappings)
    (hnew : m ∉ s.process.mappings) :
    noteSlotted s op slotted = if s.process.HasFreeSlot then m :: slotted else slotted := by
  have hold : slotted.filter (· ∈ m :: s.process.mappings) = slotted :=
    List.filter_eq_self.mpr fun m' hm' => by simp [h.process.slotted_sublist.subset hm']
  have hnone : s.process.mappings.filter
      (fun m' => m' ∉ s.process.mappings ∧ s.process.HasFreeSlot) = [] :=
    List.filter_eq_nil_iff.mpr fun m' hm' => by simp [hm']
  simp only [noteSlotted, hnext, hmappings, hold]
  by_cases hfree : s.process.HasFreeSlot
  · rw [List.filter_cons_of_pos (by simp [hnew, hfree]), hnone, if_pos hfree]
    rfl
  · rw [List.filter_cons_of_neg (by simp [hfree]), hnone, if_neg hfree]
    rfl

/-- An operation that makes no mapping leaves those slotted mappings that are still live. -/
theorem noteSlotted_of_subset {op : Op} (hnext : s.next op = some s')
    (hsub : ∀ m ∈ s'.process.mappings, m ∈ s.process.mappings) :
    noteSlotted s op slotted = slotted.filter (· ∈ s'.process.mappings) := by
  have hnone : s'.process.mappings.filter
      (fun m => m ∉ s.process.mappings ∧ s.process.HasFreeSlot) = [] :=
    List.filter_eq_nil_iff.mpr fun m hm => by simp [hsub m hm]
  simp only [noteSlotted, hnext, hnone, List.nil_append]

theorem Ok.filter_eq (h : s.Ok slotted) : slotted.filter (· ∈ s.process.mappings) = slotted :=
  List.filter_eq_self.mpr fun _ hm => decide_eq_true (h.process.slotted_sublist.subset hm)

/-- An operation that changes no mapping. -/
theorem Ok.same {op : Op} (h : s.Ok slotted) (hnext : s.next op = some s')
    (hmappings : s'.process.mappings = s.process.mappings) (h' : s'.Ok slotted) :
    s'.Ok (noteSlotted s op slotted) := by
  rw [noteSlotted_of_subset hnext fun m hm => hmappings ▸ hm, hmappings, h.filter_eq]
  exact h'

/-- **Every operation keeps the invariant.** -/
theorem Ok.next {op : Op} (h : s.Ok slotted) (hos : s.Answers op) (hnext : s.next op = some s') :
    s'.Ok (noteSlotted s op slotted) := by
  cases op with
  | construct kind id os usableBytes maxAllocSize =>
    obtain ⟨hid, ⟨pool, process', hmake, rfl⟩ | ⟨e, process', hmake, rfl⟩⟩ := next_construct hnext
    · obtain ⟨m, -, hmappings, hnew, hok⟩ := h.construct hos hid hmake
      rw [noteSlotted_of_construct h hnext hmappings hnew]
      exact hok
    · obtain ⟨hmappings, -, hok⟩ := h.construct_error hmake
      refine h.same hnext hmappings ⟨hok, ?_, h.empty⟩
      have hlive : process'.live = s.process.live := by
        simp only [Process.live, hmappings]
      rw [hlive]
      exact h.owned
  | moveConstruct id other =>
    obtain ⟨hid, from_, pool', from', hother, hmove, rfl⟩ := next_moveConstruct hnext
    obtain ⟨hpool, hfrom, -⟩ := Pool.moveConstruct_spec hmove
    have hnone : s.held id = none := by
      rw [held, hid]
      rfl
    exact h.same hnext rfl (h.pass hnone hother hpool hfrom)
  | moveAssign id other =>
    obtain ⟨-, rfl⟩ | ⟨hne, pool, from_, pool', from', process', hid, hother, hmove, rfl⟩ :=
      next_moveAssign hnext
    · exact h.same hnext rfl h
    · obtain ⟨hpool, hfrom, -, rfl⟩ := Pool.moveAssign_spec hmove
      -- the pool releases its own storage first, and is empty in between
      obtain ⟨hrelease, -, -⟩ := Pool.release_spec pool s.process
      obtain ⟨hsub, hreleased⟩ := h.releaseAt hid (x := some (pool.release s.process).1)
        fun p hp => Option.some.inj hp ▸ hrelease
      rw [noteSlotted_of_subset hnext hsub]
      have hid' : Objects.held ⟨(releaseDownwardPoolStorage pool.storage s.process).2,
          Function.update s.pools id (some (pool.release s.process).1)⟩ id = none := by
        rw [held_update, Function.update_self, Option.bind_some, Pool.held_of_empty hrelease]
      have hother' : Function.update s.pools id (some (pool.release s.process).1) other =
          some from_ := (Function.update_of_ne (Ne.symm hne) ..).trans hother
      have hpassed := hreleased.pass hid' hother' hpool hfrom
      rwa [Function.update_idem] at hpassed
  | allocate id bytes alignment =>
    obtain ⟨pool, hid, rfl⟩ := Option.map_eq_some_iff.mp hnext
    exact h.same hnext rfl (h.replace hid (Pool.storage_allocate bytes alignment))
  | reset id =>
    obtain ⟨pool, hid, rfl⟩ := Option.map_eq_some_iff.mp hnext
    exact h.same hnext rfl (h.replace hid Pool.storage_reset)
  | release id =>
    obtain ⟨pool, hid, rfl⟩ := next_release hnext
    obtain ⟨hsub, hreleased⟩ := h.releaseAt hid (x := some (pool.release s.process).1)
      fun p hp => Option.some.inj hp ▸ (Pool.release_spec pool s.process).1
    rw [noteSlotted_of_subset hnext hsub]
    exact hreleased
  | destroy id =>
    obtain ⟨pool, hid, rfl⟩ := next_destroy hnext
    obtain ⟨hsub, hreleased⟩ := h.releaseAt hid (x := none) fun p hp => by cases hp
    rw [noteSlotted_of_subset hnext hsub]
    exact hreleased

/-! ## Pools that hold no storage -/

/-- The operation moves from the object, or releases it. -/
def Op.Empties (id : ℕ) : Op → Prop
  | .moveConstruct _ other => other = id
  | .moveAssign i other => other = id ∧ i ≠ id
  | .release i => i = id
  | _ => False

/-- The operation makes an object of this name, or assigns a mapping to it. -/
def Gives (id : ℕ) (s : Objects) : Op → Prop
  | .construct _ i _ _ _ => i = id
  | .moveConstruct i _ => i = id
  | .moveAssign i other => i = id ∧ s.held other ≠ none
  | _ => False

/-- The object, if there is one of that name, holds no storage. -/
def Empty (id : ℕ) (s : Objects) : Prop :=
  ∀ pool, s.pools id = some pool → pool.storage = .empty

/-- An object that has been moved from or released is empty, with a null cursor. -/
theorem empties_spec {op : Op} (hempties : op.Empties id) (hnext : s.next op = some s') :
    ∃ pool, s'.pools id = some pool ∧ pool.cursor = 0 ∧ pool.storage = .empty := by
  cases op with
  | moveConstruct i other =>
    obtain rfl : other = id := hempties
    obtain ⟨-, from_, pool', from', -, hmove, rfl⟩ := next_moveConstruct hnext
    obtain ⟨-, hfrom, hcursor⟩ := Pool.moveConstruct_spec hmove
    exact ⟨from', Function.update_self .., hcursor, hfrom⟩
  | moveAssign i other =>
    obtain ⟨rfl, hne⟩ := hempties
    obtain ⟨heq, -⟩ | ⟨-, pool, from_, pool', from', process', -, -, hmove, rfl⟩ :=
      next_moveAssign hnext
    · exact absurd heq hne
    · obtain ⟨-, hfrom, hcursor, -⟩ := Pool.moveAssign_spec hmove
      exact ⟨from', Function.update_self .., hcursor, hfrom⟩
  | release i =>
    obtain rfl : i = id := hempties
    obtain ⟨pool, -, rfl⟩ := next_release hnext
    obtain ⟨hstorage, hcursor, -⟩ := Pool.release_spec pool s.process
    exact ⟨_, Function.update_self .., hcursor, hstorage⟩
  | _ => exact hempties.elim

theorem Empty.update {i : ℕ} (h : s.Empty id) (process : Process) (x : Option Pool)
    (hx : i = id → ∀ p, x = some p → p.storage = .empty) :
    Empty id ⟨process, Function.update s.pools i x⟩ := by
  intro p hp
  simp only at hp
  rcases eq_or_ne id i with rfl | hne
  · rw [Function.update_self] at hp
    exact hx rfl p hp
  · rw [Function.update_of_ne hne] at hp
    exact h p hp

/-- An object that holds no storage in a valid state is empty. -/
theorem Ok.storage_of_held (h : s.Ok slotted) (hid : s.pools id = some pool)
    (hheld : s.held id = none) : pool.storage = .empty := by
  refine h.empty id pool hid ?_
  by_contra hzero
  rw [held_eq hid, Pool.held, if_neg hzero] at hheld
  cases hheld

/-- An empty object stays empty until it is assigned a mapping. -/
theorem Empty.next {op : Op} (h : s.Empty id) (hok : s.Ok slotted) (hgives : ¬ Gives id s op)
    (hnext : s.next op = some s') : s'.Empty id := by
  cases op with
  | construct kind i os usableBytes maxAllocSize =>
    obtain ⟨-, ⟨pool, process', -, rfl⟩ | ⟨e, process', -, rfl⟩⟩ := next_construct hnext
    · exact h.update _ _ fun heq => absurd heq hgives
    · exact h
  | moveConstruct i other =>
    obtain ⟨-, from_, pool', from', -, hmove, rfl⟩ := next_moveConstruct hnext
    obtain ⟨-, hfrom, -⟩ := Pool.moveConstruct_spec hmove
    have hfirst := h.update s.process (some pool') fun heq => absurd heq hgives
    exact hfirst.update _ _ fun _ p hp => Option.some.inj hp ▸ hfrom
  | moveAssign i other =>
    obtain ⟨-, rfl⟩ | ⟨-, pool, from_, pool', from', process', hid, hother, hmove, rfl⟩ :=
      next_moveAssign hnext
    · exact h
    · obtain ⟨hpool, hfrom, -, -⟩ := Pool.moveAssign_spec hmove
      have hfirst := h.update (i := i) process' (some pool') ?_
      · exact hfirst.update _ _ fun _ p hp => Option.some.inj hp ▸ hfrom
      · rintro rfl p hp
        obtain rfl := Option.some.inj hp
        -- what is assigned is empty too
        have hnone : s.held other = none := by
          by_contra hheld
          exact hgives ⟨rfl, hheld⟩
        rw [hpool]
        exact hok.storage_of_held hother hnone
  | allocate i bytes alignment =>
    obtain ⟨pool, hid, rfl⟩ := Option.map_eq_some_iff.mp hnext
    refine h.update _ _ fun heq p hp => ?_
    obtain rfl := Option.some.inj hp
    rw [Pool.storage_allocate]
    exact h pool (heq ▸ hid)
  | reset i =>
    obtain ⟨pool, hid, rfl⟩ := Option.map_eq_some_iff.mp hnext
    refine h.update _ _ fun heq p hp => ?_
    obtain rfl := Option.some.inj hp
    rw [Pool.storage_reset]
    exact h pool (heq ▸ hid)
  | release i =>
    obtain ⟨pool, hid, rfl⟩ := next_release hnext
    exact h.update _ _ fun _ p hp => Option.some.inj hp ▸ (Pool.release_spec pool s.process).1
  | destroy i =>
    obtain ⟨pool, hid, rfl⟩ := next_destroy hnext
    exact h.update _ _ fun _ p hp => by cases hp

end Objects

/-- A pool without storage reports no bytes. -/
theorem Pool.bytes_of_empty (h : pool.storage = .empty) (os : Os) :
    pool.usableBytes os = 0 ∧ pool.usedBytes = 0 := by
  have husable : downwardPoolUsableBytes os pool.storage = 0 := by
    rw [h]
    exact if_pos rfl
  have hused : downwardPoolUsedBytes pool.cursor pool.storage = 0 := by
    rw [h]
    exact if_pos (Or.inr (Or.inl rfl))
  cases pool <;> exact ⟨husable, hused⟩

end

/-! ## Every run -/

namespace Objects

/-- The live mappings whose guards found a free slot, after a run. -/
def slottedAfter (registry : Option (List PoolRegistryEntry)) (ops : List Op) : List Mapping :=
  record next noteSlotted (start registry) [] ops

theorem start_ok {registry : Option (List PoolRegistryEntry)}
    (hregistry : registry = none ∨ registry = some emptyPoolRegistry) :
    (start registry).Ok [] := by
  refine ⟨⟨fun m hm => (by cases hm), .nil, .refl _, .refl _, fun entries hentries => ?_⟩, ?_,
    fun id pool hid => by cases hid⟩
  · rcases hregistry with rfl | rfl
    · cases hentries
    · obtain rfl := Option.some.inj hentries
      rw [occupied_emptyPoolRegistry]
      rfl
  · have hlive : (start registry).process.live = ∅ := by
      ext storage
      simp [start, Process.live]
    rw [hlive]
    exact .empty

theorem ok_of_run {registry : Option (List PoolRegistryEntry)} {ops : List Op} {s : Objects}
    (hregistry : registry = none ∨ registry = some emptyPoolRegistry)
    (hanswers : Along Objects.next Answers (start registry) ops)
    (hrun : run Objects.next (start registry) ops = some s) : s.Ok (slottedAfter registry ops) :=
  record_invariant_along (fun _ _ _ _ h hos hnext => h.next hos hnext) (start_ok hregistry)
    hanswers hrun

/-- A construction that throws changes neither the mappings nor the registry. -/
theorem Ok.construct_throws {s s' : Objects} {slotted : List Mapping} {kind : Kind} {id : ℕ}
    {os : Os} {usableBytes maxAllocSize : SizeT} (h : s.Ok slotted)
    (hnext : s.next (.construct kind id os usableBytes maxAllocSize) = some s')
    (hnone : s'.pools id = none) :
    s'.process.mappings = s.process.mappings ∧
      s'.process.poolRegistry = s.process.poolRegistry := by
  obtain ⟨-, ⟨pool, process', -, rfl⟩ | ⟨e, process', hmake, rfl⟩⟩ := next_construct hnext
  · cases (Function.update_self id (some pool) s.pools).symm.trans hnone
  · obtain ⟨hmappings, hregistry, -⟩ := h.construct_error hmake
    exact ⟨hmappings, hregistry⟩

/-- The storage of an object is empty or a live mapping. -/
theorem Ok.storage_live {s : Objects} {slotted : List Mapping} {id : ℕ} {pool : Pool}
    (h : s.Ok slotted) (hid : s.pools id = some pool) :
    pool.storage = .empty ∨ ∃ m ∈ s.process.mappings, m.storage = pool.storage := by
  by_cases hzero : pool.storage.mappingBegin = 0
  · exact Or.inl (h.empty id pool hid hzero)
  · exact Or.inr (h.owned.live id _ ((held_eq hid).trans (if_neg hzero)))

/-- A live mapping is the storage of exactly one object. -/
theorem Ok.existsUnique_owner {s : Objects} {slotted : List Mapping} {m : Mapping}
    (h : s.Ok slotted) (hm : m ∈ s.process.mappings) :
    ∃! id, ∃ pool, s.pools id = some pool ∧ pool.storage = m.storage := by
  have hbegin : m.storage.mappingBegin ≠ 0 := (h.process.nonempty m hm).1
  have hiff : ∀ id, s.held id = some m.storage ↔
      ∃ pool, s.pools id = some pool ∧ pool.storage = m.storage := by
    intro id
    rw [held, Option.bind_eq_some_iff]
    refine exists_congr fun pool => and_congr_right fun _ => ?_
    unfold Pool.held
    constructor
    · intro hheld
      split at hheld
      · cases hheld
      · exact Option.some.inj hheld
    · intro hstorage
      rw [hstorage, if_neg hbegin]
  simp only [← hiff]
  exact h.owned.existsUnique ⟨m, hm, rfl⟩

/-- An object that holds no storage, and is assigned none, goes on to hold none and to report no
bytes. -/
theorem Ok.empty_of_run {s s' : Objects} {slotted : List Mapping} {id : ℕ} {ops : List Op}
    (h : s.Ok slotted) (hempty : s.Empty id) (hanswers : Along Objects.next Answers s ops)
    (hgives : Along Objects.next (fun s op => ¬ Gives id s op) s ops)
    (hrun : run Objects.next s ops = some s') : s'.Empty id := by
  have hstep : ∀ s op s', ((∃ slotted, s.Ok slotted) ∧ s.Empty id) →
      (s.Answers op ∧ ¬ Gives id s op) → s.next op = some s' →
      (∃ slotted, s'.Ok slotted) ∧ s'.Empty id := by
    rintro s op s' ⟨⟨slotted, h⟩, hempty⟩ ⟨hos, hgives⟩ hnext
    exact ⟨⟨_, h.next hos hnext⟩, hempty.next h hgives hnext⟩
  exact ((hanswers.and hgives).invariant _ hstep ⟨⟨slotted, h⟩, hempty⟩ hrun).2

/-- **Each mapping has one owner and is unmapped once, and the registry follows.** In every state
reached by operations on pool objects, when `mmap` answers with nonzero ranges apart from the live
mappings:

* each live mapping is the storage of exactly one pool, and the storage of a pool is empty or a
  live mapping; the live mappings lie apart;
* each mapping made so far has been passed to `munmap` once, with its address and length, or is
  live; when there are no pools, none is;
* the taken slots of the registry are the guards of the live mappings that found a free slot;
* a construction that throws leaves no mapping and no guard, and a pool that is moved from or
  released is left without storage and with a null cursor;
* a pool without storage goes on without, and reports no bytes, until it is assigned a mapping. -/
theorem mappings_owned_once {registry : Option (List PoolRegistryEntry)} {ops : List Op}
    {s : Objects} (hregistry : registry = none ∨ registry = some emptyPoolRegistry)
    (hanswers : Along Objects.next Answers (start registry) ops)
    (hrun : run Objects.next (start registry) ops = some s) :
    (∀ m ∈ s.process.mappings,
        ∃! id, ∃ pool, s.pools id = some pool ∧ pool.storage = m.storage) ∧
      (∀ id pool, s.pools id = some pool →
        pool.storage = .empty ∨ ∃ m ∈ s.process.mappings, m.storage = pool.storage) ∧
      s.process.mappings.Pairwise Mapping.Apart ∧
      (mapped s.process.calls).Perm
        (unmapped s.process.calls ++ s.process.mappings.map Mapping.storage) ∧
      ((∀ id, s.pools id = none) → s.process.mappings = []) ∧
      (∀ entries, s.process.poolRegistry = some entries →
        (occupied entries).Perm ((slottedAfter registry ops).map Mapping.guard)) ∧
      (slottedAfter registry ops).Sublist s.process.mappings ∧
      (∀ kind id os usableBytes maxAllocSize s',
        s.next (.construct kind id os usableBytes maxAllocSize) = some s' →
        s'.pools id = none → s'.process.mappings = s.process.mappings ∧
          s'.process.poolRegistry = s.process.poolRegistry) ∧
      (∀ op id s', op.Empties id → s.next op = some s' →
        ∃ pool, s'.pools id = some pool ∧ pool.cursor = 0 ∧ pool.storage = .empty) ∧
      ∀ id ops' s', s.Empty id → Along Objects.next Answers s ops' →
        Along Objects.next (fun s op => ¬ Gives id s op) s ops' →
        run Objects.next s ops' = some s' →
        ∀ pool, s'.pools id = some pool → pool.storage = .empty ∧
          ∀ os, pool.usableBytes os = 0 ∧ pool.usedBytes = 0 := by
  have h := ok_of_run hregistry hanswers hrun
  refine ⟨fun m hm => h.existsUnique_owner hm, fun id pool hid => h.storage_live hid,
    h.process.apart, h.process.ledger, fun hnone => ?_, h.process.registry,
    h.process.slotted_sublist, fun _ _ _ _ _ _ hnext hnone => h.construct_throws hnext hnone,
    fun _ _ _ hempties hnext => empties_spec hempties hnext,
    fun id ops' s' hempty hanswers' hgives hrun' pool hpool => ?_⟩
  · rw [List.eq_nil_iff_forall_not_mem]
    intro m hm
    obtain ⟨id, ⟨pool, hid, -⟩, -⟩ := h.existsUnique_owner hm
    rw [hnone id] at hid
    cases hid
  · have hstorage := h.empty_of_run hempty hanswers' hgives hrun' pool hpool
    exact ⟨hstorage, Pool.bytes_of_empty hstorage⟩

/-- A pool is constructed and moved; a second construction is refused by `mmap`; the pool that the
first one was moved to is assigned to itself and released, twice. -/
def moveAndRelease : List Op :=
  [.construct .nonblocking 0 Os.fixed 8192 4096, .moveConstruct 1 0, .allocate 1 100 8,
    .construct .downward 2 { Os.fixed with mmap := fun _ => none } 1 1, .moveAssign 1 1,
    .release 1, .release 1]

theorem mappings_owned_once_moveAndRelease :
    ∃ s, run Objects.next (start (some emptyPoolRegistry)) moveAndRelease = some s ∧
      s.process.mappings = [] ∧
      (mapped s.process.calls).Perm
        (unmapped s.process.calls ++ s.process.mappings.map Mapping.storage) ∧
      unmapped s.process.calls = [⟨0x10000, 0x3000⟩] := by
  have hfacts : (run Objects.next (start (some emptyPoolRegistry)) moveAndRelease).map (fun s =>
      (s.process.mappings, unmapped s.process.calls)) = some ([], [⟨0x10000, 0x3000⟩]) := by rfl
  obtain ⟨s, hs, hfacts⟩ := Option.map_eq_some_iff.mp hfacts
  obtain ⟨hmappings, hunmapped⟩ := Prod.mk.inj hfacts
  have hanswers : Along Objects.next Answers (start (some emptyPoolRegistry)) moveAndRelease := by
    refine ⟨⟨Os.fixed_lawful.mmap_zero, Os.fixed_lawful.mmap_ne_zero, fun _ _ _ m hm => ?_⟩,
      fun s' _ => Along.of_forall fun op hop s => ?_⟩
    · cases hm
    · simp only [List.mem_cons, List.not_mem_nil, or_false] at hop
      rcases hop with rfl | rfl | rfl | rfl | rfl | rfl
      · trivial
      · trivial
      · exact ⟨rfl, fun _ _ h => (by cases h), fun _ _ h => by cases h⟩
      · trivial
      · trivial
      · trivial
  obtain ⟨-, -, -, hledger, -⟩ := mappings_owned_once (Or.inr rfl) hanswers hs
  exact ⟨s, hs, hmappings, hledger, hunmapped⟩

end Objects

end Doost.Pools
