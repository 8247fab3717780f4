import Doost.Foundations.Decimal
import Doost.Pools.Objects
import Doost.Pools.Registrations
import Doost.Signals.OverflowHandler

/-!
# The report of an overflow

The pools and the signals of one process together: the pools map memory and register their guards,
the overflow handler searches that registry, and guarded reads go through the same memory
(`Library`). An access to a live pool either is to its bytes, which are 0 when the pool is mapped
and then what was last stored there, or faults in its guard; the fault is reported with the number
of the slot that holds this guard and no other, and ends the process (`accesses_reported`). Faults
elsewhere are passed on without a word, and guarded reads never report anything, also where they run
into a guard. All this is for a process that blocks neither of the two signals.
-/

namespace Doost.Signals

open Pools (UIntPtr PoolRegistryEntry Mapping Objects occupied emptyPoolRegistry)
open Pools.Registrations (Covers)
open Transition

/-! ## The text -/

theorem sizeDigits_eq_write (value : ℕ) : sizeDigits value = Decimal.write value := by
  induction value using sizeDigits.induct with
  | case1 value h =>
    rw [sizeDigits, Decimal.write, if_pos h, if_pos h]
    rfl
  | case2 value h ih =>
    rw [sizeDigits, Decimal.write, if_neg h, if_neg h, ih]
    rfl

/-- The digits of a `size_t` fit the buffer of `write_size`, `digits10 + 1` characters. -/
theorem length_sizeDigits_le {value : ℕ} (h : value < 2 ^ 64) : (sizeDigits value).length ≤ 20 := by
  rw [sizeDigits_eq_write]
  exact Decimal.length_write_le (by decide) (h.trans (by decide))

/-- What the handler writes for the pool in slot `index`. -/
def report (signalNumber : SignalNumber) (index : ℕ) : String :=
  "doost: " ++ signalName signalNumber ++ " while accessing protected pool #" ++
    String.ofList (sizeDigits index) ++ "\n"

/-- The number can be read off the report. -/
theorem report_injective (signal : SignalNumber) : Function.Injective (report signal) := by
  intro i j h
  have hlist := congrArg String.toList h
  simp only [report, String.toList_append, String.toList_ofList, List.append_cancel_left_eq,
    List.append_cancel_right_eq, sizeDigits_eq_write] at hlist
  exact Decimal.write_injective hlist

variable {p : Process} {signal : SignalNumber} {address : UIntPtr}
  {registry : List PoolRegistryEntry}

/-- The search returns the first slot that covers the address. -/
theorem findPoolIndexFrom_spec (address : UIntPtr) (index : ℤ)
    (registry : List PoolRegistryEntry) :
    (∃ k entry, registry[k]? = some entry ∧ Covers entry address ∧
        findPoolIndexFrom address index registry = index + (k : ℕ)) ∨
      ∀ entry ∈ registry, ¬ Covers entry address := by
  induction registry generalizing index with
  | nil => exact Or.inr fun _ h => by cases h
  | cons entry rest ih =>
    by_cases hcovers : Covers entry address
    · refine Or.inl ⟨0, entry, rfl, hcovers, ?_⟩
      rw [findPoolIndexFrom, if_neg hcovers.1, if_pos hcovers.2]
      simp
    · have hnext : findPoolIndexFrom address index (entry :: rest) =
          findPoolIndexFrom address (index + 1) rest := by
        rw [findPoolIndexFrom]
        split
        · rfl
        · next hbegin => exact if_neg fun hin => hcovers ⟨hbegin, hin⟩
      obtain ⟨k, other, hk, hcovers', heq⟩ | hnone := ih (index + 1)
      · refine Or.inl ⟨k + 1, other, hk, hcovers', ?_⟩
        rw [hnext, heq]
        push_cast
        ring
      · exact Or.inr (List.forall_mem_cons.mpr ⟨hcovers, hnone⟩)

theorem poolSignalHandler_of_index {k : ℕ}
    (hk : findPoolIndex p.poolRegistry address = k) :
    poolSignalHandler signal (some address) p =
      (.raise signal (128 + signal),
        { p with stderr := p.stderr ++ report signal k }.setDisposition signal
          ⟨.sigDfl, ∅, 0⟩) := by
  have hindex : (some address).elim (-1) (findPoolIndex p.poolRegistry) = k := hk
  have hnonneg : ¬ (k : ℤ) < 0 := by omega
  simp only [poolSignalHandler, hindex, if_neg hnonneg, Int.toNat_natCast, writeAll, writeSize,
    raiseWithDefaultAction, report, String.append_assoc]

theorem callPreviousSignalHandler_stderr :
    (callPreviousSignalHandler signal p).2.stderr = p.stderr := by
  unfold callPreviousSignalHandler
  split
  · rfl
  · split <;> rfl

/-- With the overflow handler in force, a fault is its call. -/
theorem deliver_of_poolSignalHandler
    (hhandler : (p.dispositions signal).handler = .function .poolSignalHandler) :
    p.deliver signal address = poolSignalHandler signal (some address)
      { p with mask := (p.dispositions signal).maskDuring p.mask signal } := by
  simp only [Process.deliver, hhandler]

theorem deliver_of_index {k : ℕ}
    (hhandler : (p.dispositions signal).handler = .function .poolSignalHandler)
    (hk : findPoolIndex p.poolRegistry address = k) :
    p.deliver signal address =
      (.raise signal (128 + signal),
        { p with
          mask := (p.dispositions signal).maskDuring p.mask signal
          stderr := p.stderr ++ report signal k }.setDisposition signal ⟨.sigDfl, ∅, 0⟩) :=
  (deliver_of_poolSignalHandler hhandler).trans (poolSignalHandler_of_index hk)

theorem deliver_of_outsideGuards
    (hhandler : (p.dispositions signal).handler = .function .poolSignalHandler)
    (hout : OutsideGuards p.poolRegistry (some address)) :
    p.deliver signal address = callPreviousSignalHandler signal
      { p with mask := (p.dispositions signal).maskDuring p.mask signal } :=
  (deliver_of_poolSignalHandler hhandler).trans (poolSignalHandler_of_outsideGuards hout)

/-! ## Pools and signals in one process -/

/-- The pool objects and what they have mapped, the bytes in the mappings, and the signals. -/
structure Library where
  objects : Objects
  contents : UIntPtr → BitVec 8
  session : Session

inductive LibraryEvent
  | pool (op : Objects.Op)
  | signal (event : Event)
  /-- The program stores a byte in a mapping. -/
  | store (address : UIntPtr) (value : BitVec 8)

/-- What a load does: a mapping has its guard at the low end. -/
def cell (mappings : List Mapping) (contents : UIntPtr → BitVec 8) (outside : UIntPtr → Cell)
    (address : UIntPtr) : Cell :=
  match mappings.find? fun m => m.lo ≤ address.toNat ∧ address.toNat < m.hi with
  | none => outside address
  | some m => if m.InGuard address.toNat then .segv else .byte (contents address)

/-- The bytes after some mappings have been made, which the system fills with zeros. -/
def zeroFilled (before after : List Mapping) (contents : UIntPtr → BitVec 8) (address : UIntPtr) :
    BitVec 8 :=
  if ∃ m ∈ after, m ∉ before ∧ m.lo ≤ address.toNat ∧ address.toNat < m.hi then 0
  else contents address

/-- The session, with another memory and another registry before it. -/
def Session.view (s : Session) (memory : UIntPtr → Cell) (registry : List PoolRegistryEntry) :
    Session :=
  { s with process := { s.process with memory := memory, poolRegistry := registry } }

namespace Library

/-- The pools after an operation or a store, with what the signals see of them. -/
def sync (outside : UIntPtr → Cell) (objects : Objects) (contents : UIntPtr → BitVec 8)
    (session : Session) : Library where
  objects := objects
  contents := contents
  session := session.view (cell objects.process.mappings contents outside)
    (objects.process.poolRegistry.getD [])

/-- One event. A store is to a byte of a mapping that can be accessed. -/
def next (outside : UIntPtr → Cell) (s : Library) : LibraryEvent → Option Library
  | .pool op => (s.objects.next op).map fun objects =>
    sync outside objects
      (zeroFilled s.objects.process.mappings objects.process.mappings s.contents) s.session
  | .signal event => (Signals.next s.session event).map fun session => { s with session := session }
  | .store address value =>
    if ∃ m ∈ s.objects.process.mappings, m.guardEnd ≤ address.toNat ∧ address.toNat < m.hi then
      some (sync outside s.objects (Function.update s.contents address value) s.session)
    else none

/-- A process that starts, with the handler compiled in. -/
def start (outside : UIntPtr → Cell) (contents : UIntPtr → BitVec 8)
    (dispositions : SignalNumber → OwnAction) (mask : Finset SignalNumber) (errno : ℤ) : Library :=
  sync outside (Objects.start (some emptyPoolRegistry)) contents
    (.start outside dispositions mask errno [])

/-- What the operating system answers to the construction of a pool. -/
def Answers (s : Library) : LibraryEvent → Prop
  | .pool op => s.objects.Answers op ∧ ∀ kind id os usableBytes maxAllocSize,
      op = .construct kind id os usableBytes maxAllocSize → os.Lawful
  | _ => True

end Library

/-- A fault of the program. Linux ends a process that blocks the signal of its fault. -/
def Process.fault (p : Process) (signal : SignalNumber) (address : UIntPtr) : Ending × Process :=
  if signal ∈ p.mask then (.killed signal, p) else p.deliver signal address

/-- A direct access of the program. -/
def Process.access (p : Process) (address : UIntPtr) : Except (Ending × Process) (BitVec 8) :=
  match (p.memory address).load with
  | .ok value => .ok value
  | .error signal => .error (p.fault signal address)

/-! ## What the bytes hold -/

/-- The mapping ends inside the address space, and its guard inside the mapping. -/
structure Sized (m : Mapping) : Prop where
  guard_le : m.guardEnd ≤ m.hi
  fits : m.hi < 2 ^ 64

theorem Sized.covers {m : Mapping} (h : Sized m) (hbegin : m.mappingBegin ≠ 0) :
    Covers m.guard address ↔ m.InGuard address.toNat := by
  have hend : (m.mappingBegin + m.guardBytes).toNat = m.guardEnd := by
    rw [BitVec.toNat_add]
    exact Nat.mod_eq_of_lt (h.guard_le.trans_lt h.fits)
  unfold Covers Mapping.guard Mapping.InGuard Mapping.lo
  rw [BitVec.le_def, BitVec.lt_def, hend]
  exact and_iff_right hbegin

/-- What an operation does to the process. -/
theorem next_process {s s' : Objects} {op : Objects.Op} (hnext : s.next op = some s') :
    s'.process = s.process ∨
      (∃ storage, s'.process = (Pools.releaseDownwardPoolStorage storage s.process).2) ∨
      ∃ kind id os usableBytes maxAllocSize,
        op = .construct kind id os usableBytes maxAllocSize ∧
          s'.process = (Pools.makeDownwardPoolStorage os usableBytes maxAllocSize s.process).2 := by
  cases op with
  | construct kind id os usableBytes maxAllocSize =>
    obtain ⟨hprocess, -⟩ := Pools.Pool.make_eq kind os usableBytes maxAllocSize s.process
    refine Or.inr (Or.inr ⟨kind, id, os, usableBytes, maxAllocSize, rfl, ?_⟩)
    obtain ⟨-, ⟨pool, process', hmake, rfl⟩ | ⟨e, process', hmake, rfl⟩⟩ :=
      Objects.next_construct hnext
    all_goals
      rw [hmake] at hprocess
      exact hprocess
  | moveConstruct id other =>
    obtain ⟨-, _, _, _, -, -, rfl⟩ := Objects.next_moveConstruct hnext
    exact Or.inl rfl
  | moveAssign id other =>
    obtain ⟨-, rfl⟩ | ⟨-, pool, _, _, _, process', -, -, hmove, rfl⟩ :=
      Objects.next_moveAssign hnext
    · exact Or.inl rfl
    · obtain ⟨-, -, -, rfl⟩ := Pools.Pool.moveAssign_spec hmove
      exact Or.inr (Or.inl ⟨_, rfl⟩)
  | allocate id bytes alignment | reset id =>
    obtain ⟨pool, -, rfl⟩ := Option.map_eq_some_iff.mp hnext
    exact Or.inl rfl
  | release id =>
    obtain ⟨pool, -, rfl⟩ := Objects.next_release hnext
    exact Or.inr (Or.inl ⟨_, rfl⟩)
  | destroy id =>
    obtain ⟨pool, -, rfl⟩ := Objects.next_destroy hnext
    exact Or.inr (Or.inl ⟨_, rfl⟩)

theorem release_process (storage : Pools.DownwardPoolStorage) (process : Pools.Process) :
    (Pools.releaseDownwardPoolStorage storage process).2.mappings ⊆ process.mappings ∧
      (Pools.releaseDownwardPoolStorage storage process).2.poolRegistry.isSome =
        process.poolRegistry.isSome := by
  unfold Pools.releaseDownwardPoolStorage
  split
  · exact ⟨List.Subset.refl _, Option.isSome_map ..⟩
  · exact ⟨fun m hm => List.mem_of_mem_filter hm, Option.isSome_map ..⟩

theorem make_process (os : Pools.Os) (usableBytes maxAllocSize : Pools.SizeT)
    (process : Pools.Process) :
    ((Pools.makeDownwardPoolStorage os usableBytes maxAllocSize process).2.mappings =
        process.mappings ∨ ∃ storage,
          (Pools.makeDownwardPoolStorage os usableBytes maxAllocSize process).1 = .ok storage) ∧
      (Pools.makeDownwardPoolStorage os usableBytes maxAllocSize process).2.poolRegistry.isSome =
        process.poolRegistry.isSome := by
  simp only [Pools.makeDownwardPoolStorage]
  split
  · exact ⟨Or.inl rfl, rfl⟩
  split
  · exact ⟨Or.inl rfl, rfl⟩
  simp only [Pools.mapPoolStorage]
  split
  · exact ⟨Or.inl rfl, rfl⟩
  split
  · exact ⟨Or.inr ⟨_, rfl⟩, Option.isSome_map ..⟩
  · exact ⟨Or.inl rfl, rfl⟩

/-- A mapping that is new is sized. -/
theorem next_mappings {s s' : Objects} {op : Objects.Op} (hnext : s.next op = some s')
    (hos : ∀ kind id os usableBytes maxAllocSize,
      op = .construct kind id os usableBytes maxAllocSize → os.Lawful)
    {m : Mapping} (hm : m ∈ s'.process.mappings) : m ∈ s.process.mappings ∨ Sized m := by
  obtain hsame | ⟨storage, hprocess⟩ | ⟨kind, id, os, usableBytes, maxAllocSize, hop, hprocess⟩ :=
    next_process hnext
  · exact Or.inl (hsame ▸ hm)
  · rw [hprocess] at hm
    exact Or.inl ((release_process storage s.process).1 hm)
  · rw [hprocess] at hm
    obtain hsame | ⟨storage, hstorage⟩ :=
      (make_process os usableBytes maxAllocSize s.process).1
    · exact Or.inl (hsame ▸ hm)
    · have hlawful := hos _ _ _ _ _ hop
      obtain ⟨u, g, -, -, hsum, -, hmmap, hmappings⟩ :=
        Pools.makeDownwardPoolStorage_ok hlawful (Prod.ext hstorage rfl)
      rw [hmappings] at hm
      obtain rfl | hold := List.mem_cons.mp hm
      · have hadd : (u + g).toNat = u.toNat + g.toNat := by
          rw [BitVec.toNat_add, Nat.mod_eq_of_lt hsum]
        refine Or.inr ⟨?_, hlawful.mmap_fits _ _ hmmap⟩
        simp only [Mapping.guardEnd, Mapping.hi, hadd]
        omega
      · exact Or.inl hold

/-- The registry stays compiled in. -/
theorem next_registry {s s' : Objects} {op : Objects.Op} (hnext : s.next op = some s') :
    s'.process.poolRegistry.isSome = s.process.poolRegistry.isSome := by
  obtain hsame | ⟨storage, hprocess⟩ | ⟨kind, id, os, usableBytes, maxAllocSize, -, hprocess⟩ :=
    next_process hnext
  · rw [hsame]
  · rw [hprocess]
    exact (release_process storage s.process).2
  · rw [hprocess]
    exact (make_process os usableBytes maxAllocSize s.process).2

/-! ## The signals beside another memory -/

variable {memory : UIntPtr → Cell} {segv bus : Answer} {s t u : Session} {event : Event}

theorem install_view :
    installPoolOverflowSignalHandler segv bus (t.view memory registry).process =
      { installPoolOverflowSignalHandler segv bus t.process with
        memory := memory, poolRegistry := registry } := by
  cases hflag : t.process.poolSignalHandlerInstalled with
  | true =>
    rw [install_of_installed hflag, install_of_installed (p := (t.view memory registry).process)
      hflag]
    rfl
  | false =>
    simp only [installPoolOverflowSignalHandler, Session.view, hflag]
    cases segv <;> cases bus <;> rfl

/-- An event leaves the signals blocked that were. -/
theorem next_mask (hidle : t.process.readActive = 0) (hnext : next t event = some u) :
    u.process.mask = t.process.mask := by
  cases event with
  | install segv bus =>
    obtain rfl := Option.some.inj hnext
    simp only [installPoolOverflowSignalHandler]
    split
    · rfl
    · cases segv <;> cases bus <;> rfl
  | safeRead call =>
    obtain ⟨result, q, hread, hq, -⟩ := safeReadUint8_spec call hidle
    simp only [next, hread] at hnext
    obtain rfl := Option.some.inj hnext
    change q.mask = _
    rw [hq]
  | user signal action | observe signal =>
    obtain rfl := Option.some.inj hnext
    rfl
  | putBack signal k =>
    obtain ⟨action, -, rfl⟩ := Option.map_eq_some_iff.mp hnext
    rfl

/-- The overflow handler comes with the flags that it is installed with. -/
def SigAction.Flagged (action : SigAction) : Prop :=
  action.handler = .function .poolSignalHandler → action = poolSignalAction

theorem SigAction.Own.flagged {action : SigAction} (h : action.Own) : action.Flagged :=
  fun hhandler => absurd hhandler h.2

/-- All actions of the process, and those that its program has observed, are flagged. -/
structure Session.Flagged (s : Session) : Prop where
  dispositions : ∀ signal, (s.process.dispositions signal).Flagged
  observed : ∀ action ∈ s.observed, action.Flagged

theorem Session.Flagged.replace (h : t.Flagged) {signal : SignalNumber} {action : SigAction}
    (haction : action.Flagged) : (t.replace signal action).Flagged where
  dispositions other := by
    rcases eq_or_ne other signal with rfl | hne
    · change ((t.process.setDisposition other action).dispositions other).Flagged
      rwa [Process.setDisposition_dispositions_self]
    · change ((t.process.setDisposition signal action).dispositions other).Flagged
      rw [Process.setDisposition_dispositions_of_ne hne]
      exact h.dispositions other
  observed a ha := by
    rcases List.mem_append.mp ha with ha | ha
    · exact h.observed a ha
    · rw [List.mem_singleton.mp ha]
      exact h.dispositions signal

theorem Session.Flagged.next (h : t.Flagged) (hidle : t.process.readActive = 0)
    (hnext : next t event = some u) : u.Flagged := by
  cases event with
  | install segv bus =>
    obtain rfl := Option.some.inj hnext
    refine ⟨fun signal => ?_, h.observed⟩
    cases hflag : t.process.poolSignalHandlerInstalled with
    | true =>
      simp only [install_of_installed hflag]
      exact h.dispositions signal
    | false =>
      by_cases hsucceeds : segv = .succeeds ∧ bus = .succeeds
      · obtain ⟨rfl, rfl⟩ := hsucceeds
        simp only [install_succeeds hflag]
        change (Function.update (Function.update t.process.dispositions sigsegv poolSignalAction)
          sigbus poolSignalAction signal).Flagged
        rcases eq_or_ne signal sigbus with rfl | hbus
        · rw [Function.update_self]
          exact fun _ => rfl
        rw [Function.update_of_ne hbus]
        rcases eq_or_ne signal sigsegv with rfl | hsegv
        · rw [Function.update_self]
          exact fun _ => rfl
        · rw [Function.update_of_ne hsegv]
          exact h.dispositions signal
      · obtain ⟨errno, previous, -, heq⟩ := install_fails hflag hsucceeds
        simp only [heq]
        exact h.dispositions signal
  | safeRead call =>
    obtain ⟨result, q, hread, hq, -⟩ := safeReadUint8_spec call hidle
    simp only [Signals.next, hread] at hnext
    obtain rfl := Option.some.inj hnext
    exact ⟨fun signal => by simp only [hq.dispositions_eq]; exact h.dispositions signal, h.observed⟩
  | user signal action =>
    obtain rfl := Option.some.inj hnext
    exact h.replace action.property.flagged
  | observe signal =>
    obtain rfl := Option.some.inj hnext
    refine ⟨h.dispositions, fun a ha => ?_⟩
    rcases List.mem_append.mp ha with ha | ha
    · exact h.observed a ha
    · rw [List.mem_singleton.mp ha]
      exact h.dispositions signal
  | putBack signal k =>
    obtain ⟨action, hk, rfl⟩ := Option.map_eq_some_iff.mp hnext
    exact h.replace (h.observed action (List.mem_of_getElem? hk))

theorem flagged_of_run {dispositions : SignalNumber → OwnAction} {mask : Finset SignalNumber}
    {errno : ℤ} {events : List Event}
    (hrun : run next (.start memory dispositions mask errno registry) events = some t) :
    t.Flagged := by
  refine history_invariant (I := fun _ t => t.Flagged) ?_ ?_ hrun
  · exact ⟨fun signal => (dispositions signal).property.flagged, fun _ ha => by cases ha⟩
  · exact fun _ _ _ _ h hrun hnext => h.next (sound_of_run hrun).idle hnext

/-- The overflow handler runs with the signals blocked that were. -/
theorem maskDuring_poolSignalAction (mask : Finset SignalNumber) (signal : SignalNumber) :
    poolSignalAction.maskDuring mask signal = mask := by
  have hnodefer : poolSignalAction.flags &&& saNodefer ≠ 0 := by decide
  rw [SigAction.maskDuring, if_neg hnodefer, Finset.union_empty]
  exact Finset.union_empty mask

/-- The memory and the registry that a session sees make no difference to the rest of it. -/
theorem next_view (hidle : t.process.readActive = 0) :
    next (t.view memory registry) event = (next t event).map (·.view memory registry) := by
  cases event with
  | install segv bus =>
    simp only [next, install_view]
    rfl
  | safeRead call =>
    obtain ⟨address, segv, bus⟩ := call
    have hidle' : (t.view memory registry).process.readActive = 0 := hidle
    by_cases hinstalls : segv = .succeeds ∧ bus = .succeeds
    · obtain ⟨rfl, rfl⟩ := hinstalls
      simp only [next, safeReadUint8_of_installs hidle, safeReadUint8_of_installs hidle']
      rfl
    · simp only [next, safeReadUint8_of_not_installs hinstalls]
      rfl
  | user signal action | observe signal => rfl
  | putBack signal k =>
    simp only [next]
    cases hk : t.observed[k]? with
    | none =>
      simp only [Session.view, hk]
      rfl
    | some action =>
      simp only [Session.view, hk]
      rfl

/-! ## Every event -/

/-- What holds between two events. -/
structure Library.Ok (outside : UIntPtr → Cell) (start : Session) (s : Library) : Prop where
  objects : ∃ slotted, s.objects.Ok slotted
  sized : ∀ m ∈ s.objects.process.mappings, Sized m
  registry : s.objects.process.poolRegistry = some s.session.process.poolRegistry
  memory : s.session.process.memory = cell s.objects.process.mappings s.contents outside
  session : ∃ history t, run Signals.next start history = some t ∧
    s.session = t.view s.session.process.memory s.session.process.poolRegistry
  mask : s.session.process.mask = start.process.mask

namespace Library

variable {outside : UIntPtr → Cell} {contents : UIntPtr → BitVec 8} {s s' : Library}
  {objects : Objects} {dispositions : SignalNumber → OwnAction} {mask : Finset SignalNumber}
  {errno : ℤ} {e : LibraryEvent}

theorem Ok.sync {start : Session} (h : s.Ok outside start)
    (hobjects : ∃ slotted, objects.Ok slotted) (hsized : ∀ m ∈ objects.process.mappings, Sized m)
    (hregistry : objects.process.poolRegistry.isSome) :
    (sync outside objects contents s.session).Ok outside start where
  objects := hobjects
  sized := hsized
  registry := by
    obtain ⟨registry, hsome⟩ := Option.isSome_iff_exists.mp hregistry
    change objects.process.poolRegistry = some (objects.process.poolRegistry.getD [])
    rw [hsome]
    rfl
  memory := rfl
  session := by
    obtain ⟨history, t, hrun, hview⟩ := h.session
    refine ⟨history, t, hrun, ?_⟩
    change s.session.view _ _ = _
    rw [hview]
    rfl
  mask := h.mask

theorem start_ok : (start outside contents dispositions mask errno).Ok outside
    (.start outside dispositions mask errno []) where
  objects := ⟨[], Objects.start_ok (Or.inr rfl)⟩
  sized _ hm := by cases hm
  registry := rfl
  memory := rfl
  session := ⟨[], _, rfl, rfl⟩
  mask := rfl

theorem Ok.next (h : s.Ok outside (.start outside dispositions mask errno []))
    (hanswers : s.Answers e) (hnext : s.next outside e = some s') :
    s'.Ok outside (.start outside dispositions mask errno []) := by
  cases e with
  | pool op =>
    obtain ⟨objects, hop, rfl⟩ := Option.map_eq_some_iff.mp hnext
    obtain ⟨slotted, hobjects⟩ := h.objects
    refine h.sync ⟨_, hobjects.next hanswers.1 hop⟩ (fun m hm => ?_) ?_
    · obtain hold | hnew := next_mappings hop hanswers.2 hm
      · exact h.sized m hold
      · exact hnew
    · rw [next_registry hop, h.registry]
      rfl
  | store address value =>
    simp only [Library.next] at hnext
    split at hnext <;> cases hnext
    refine h.sync h.objects h.sized ?_
    rw [h.registry]
    rfl
  | signal event =>
    obtain ⟨session, hevent, rfl⟩ := Option.map_eq_some_iff.mp hnext
    obtain ⟨history, t, hrun, hview⟩ := h.session
    have hidle := (sound_of_run hrun).idle
    have hmask : t.process.mask = s.session.process.mask := by rw [hview]; rfl
    rw [hview, next_view hidle] at hevent
    obtain ⟨u, hu, rfl⟩ := Option.map_eq_some_iff.mp hevent
    exact
      { objects := h.objects
        sized := h.sized
        registry := h.registry
        memory := h.memory
        session := ⟨history ++ [event], u, run_concat_eq_some.mpr ⟨t, hrun, hu⟩, rfl⟩
        mask := (next_mask hidle hu).trans (hmask.trans h.mask) }

theorem ok_of_run {events : List LibraryEvent}
    (hanswers : Along (Library.next outside) Answers
      (start outside contents dispositions mask errno) events)
    (hrun : run (Library.next outside) (start outside contents dispositions mask errno) events =
      some s) : s.Ok outside (.start outside dispositions mask errno []) :=
  hanswers.invariant _ (fun _ _ _ h hos hnext => h.next hos hnext) start_ok hrun

variable {start : Session} {m m' : Mapping}

/-- No address is in two mappings. -/
theorem Ok.eq_of_mem (h : s.Ok outside start) (hm : m ∈ s.objects.process.mappings)
    (hm' : m' ∈ s.objects.process.mappings) (hin : m.lo ≤ address.toNat ∧ address.toNat < m.hi)
    (hin' : m'.lo ≤ address.toNat ∧ address.toNat < m'.hi) : m = m' := by
  obtain ⟨slotted, hobjects⟩ := h.objects
  by_contra hne
  have hsymm : Std.Symm Mapping.Apart := ⟨fun _ _ h => Or.symm h⟩
  have hapart := hobjects.process.apart.forall hm hm' hne
  unfold Mapping.Apart at hapart
  omega

theorem Ok.cell_eq (h : s.Ok outside start) (hm : m ∈ s.objects.process.mappings)
    (hin : m.lo ≤ address.toNat ∧ address.toNat < m.hi) :
    s.session.process.memory address =
      if m.InGuard address.toNat then .segv else .byte (s.contents address) := by
  rw [h.memory, cell]
  cases hfind : s.objects.process.mappings.find? fun m =>
      m.lo ≤ address.toNat ∧ address.toNat < m.hi with
  | none =>
    have hnone := List.find?_eq_none.mp hfind m hm
    exact absurd hin (by simpa using hnone)
  | some m' =>
    have hin' : m'.lo ≤ address.toNat ∧ address.toNat < m'.hi := by
      simpa using List.find?_some hfind
    rw [h.eq_of_mem hm (List.mem_of_find?_eq_some hfind) hin hin']

/-! ## Bytes -/

/-- A byte of a mapping that stays changes only in a store to it. -/
theorem Ok.contents_eq (h : s'.Ok outside start) (hnext : s.next outside e = some s')
    (hm : m ∈ s.objects.process.mappings) (hm' : m ∈ s'.objects.process.mappings)
    (hin : m.lo ≤ address.toNat ∧ address.toNat < m.hi)
    (hstore : ∀ value, e ≠ .store address value) :
    s'.contents address = s.contents address := by
  cases e with
  | pool op =>
    obtain ⟨objects, -, rfl⟩ := Option.map_eq_some_iff.mp hnext
    refine if_neg ?_
    rintro ⟨m', hm₁, hnew, hin'⟩
    exact hnew (h.eq_of_mem hm' hm₁ hin hin' ▸ hm)
  | store other value =>
    simp only [Library.next] at hnext
    split at hnext <;> cases hnext
    refine Function.update_of_ne (fun heq => hstore value ?_) _ _
    rw [heq]
  | signal event =>
    obtain ⟨session, -, rfl⟩ := Option.map_eq_some_iff.mp hnext
    rfl

/-- A taken slot of the registry is the guard of a mapping. -/
theorem Ok.guard_of_entry (h : s.Ok outside start) {entry : PoolRegistryEntry}
    (hentry : entry ∈ s.session.process.poolRegistry) (hcovers : Covers entry address) :
    ∃ m ∈ s.objects.process.mappings, m.guard = entry ∧ m.InGuard address.toNat := by
  obtain ⟨slotted, hobjects⟩ := h.objects
  have hoccupied : entry ∈ occupied s.session.process.poolRegistry :=
    List.mem_filter.mpr ⟨hentry, by simpa using hcovers.1⟩
  obtain ⟨m, hm, rfl⟩ :=
    List.mem_map.mp ((hobjects.process.registry _ h.registry).mem_iff.mp hoccupied)
  have hlive := hobjects.process.slotted_sublist.subset hm
  refine ⟨m, hlive, rfl, ?_⟩
  exact ((h.sized m hlive).covers (hobjects.process.nonempty m hlive).1).mp hcovers

/-- A fault in the guard of a mapping is found in the slot that holds it. -/
theorem Ok.findPoolIndex_eq (h : s.Ok outside start) (hm : m ∈ s.objects.process.mappings)
    (hregistered : m.guard ∈ s.session.process.poolRegistry) (hin : m.InGuard address.toNat) :
    ∃ k : ℕ, s.session.process.poolRegistry[k]? = some m.guard ∧
      findPoolIndex s.session.process.poolRegistry address = k := by
  obtain ⟨slotted, hobjects⟩ := h.objects
  have hrange : ∀ m ∈ s.objects.process.mappings, m.InGuard address.toNat →
      m.lo ≤ address.toNat ∧ address.toNat < m.hi :=
    fun m hm hin => ⟨hin.1, hin.2.trans_le (h.sized m hm).guard_le⟩
  obtain ⟨k, entry, hk, hcovers, hindex⟩ | hnone :=
    findPoolIndexFrom_spec address 0 s.session.process.poolRegistry
  · obtain ⟨m', hm', rfl, hin'⟩ := h.guard_of_entry (List.mem_of_getElem? hk) hcovers
    obtain rfl := h.eq_of_mem hm hm' (hrange m hm hin) (hrange m' hm' hin')
    exact ⟨k, hk, by rw [findPoolIndex, hindex, zero_add]⟩
  · have hcovers := ((h.sized m hm).covers (hobjects.process.nonempty m hm).1).mpr hin
    exact absurd hcovers (hnone _ hregistered)

/-- No two mappings are in one slot. -/
theorem Ok.eq_of_slot (h : s.Ok outside start) (hm : m ∈ s.objects.process.mappings)
    (hm' : m' ∈ s.objects.process.mappings) {k : ℕ}
    (hk : s.session.process.poolRegistry[k]? = some m.guard)
    (hk' : s.session.process.poolRegistry[k]? = some m'.guard) : m' = m := by
  obtain ⟨slotted, hobjects⟩ := h.objects
  have hguard : m'.guard = m.guard := Option.some.inj (hk'.symm.trans hk)
  exact hobjects.process.eq_of_begin hm' hm (congrArg PoolRegistryEntry.guardBegin hguard)

/-- What an access to an address does, directly or by a guarded read. -/
structure Accesses (s : Library) (address : UIntPtr) : Prop where
  /-- The bytes of a mapping can be read. -/
  bytes : ∀ m ∈ s.objects.process.mappings, m.guardEnd ≤ address.toNat → address.toNat < m.hi →
    s.session.process.access address = .ok (s.contents address)
  /-- A fault in a registered guard is reported with its slot, and ends the process. -/
  reported : (s.session.process.dispositions sigsegv).handler = .function .poolSignalHandler →
    ∀ m ∈ s.objects.process.mappings, m.guard ∈ s.session.process.poolRegistry →
    m.InGuard address.toNat →
    ∃ k q, s.session.process.poolRegistry[k]? = some m.guard ∧
      (∀ m' ∈ s.objects.process.mappings,
        s.session.process.poolRegistry[k]? = some m'.guard → m' = m) ∧
      s.session.process.access address = .error (.raise sigsegv (128 + sigsegv), q) ∧
      q.stderr = s.session.process.stderr ++ report sigsegv k ∧
      q.dispositions sigsegv = ⟨.sigDfl, ∅, 0⟩ ∧ sigsegv ∉ q.mask
  /-- Any other fault is passed on without a report. -/
  passedOn : (∀ m ∈ s.objects.process.mappings, m.guard ∈ s.session.process.poolRegistry →
      ¬ m.InGuard address.toNat) →
    ∀ signal ∉ s.session.process.mask,
      (s.session.process.dispositions signal).handler = .function .poolSignalHandler →
      (s.session.process.fault signal address).1.PassesOn ∧
        (s.session.process.fault signal address).2.stderr = s.session.process.stderr
  /-- A guarded read returns, and reports nothing. -/
  guardedRead : ∀ segv bus, ∃ result q,
    safeReadUint8 address segv bus s.session.process = .ok (result, q) ∧
      q.stderr = s.session.process.stderr ∧ q.dispositions = s.session.process.dispositions ∧
      (∀ m ∈ s.objects.process.mappings, m.InGuard address.toNat → result = none) ∧
      ∀ m ∈ s.objects.process.mappings, m.guardEnd ≤ address.toNat → address.toNat < m.hi →
        segv = .succeeds → bus = .succeeds → result = some (s.contents address)

theorem Ok.accesses (h : s.Ok outside (.start outside dispositions mask errno []))
    (hsegv : sigsegv ∉ mask) (address : UIntPtr) : s.Accesses address := by
  obtain ⟨history, t, hrun, hview⟩ := h.session
  have hsound := sound_of_run hrun
  have hidle : s.session.process.readActive = 0 := by
    rw [hview]
    exact hsound.idle
  have hbyte : ∀ m ∈ s.objects.process.mappings, m.guardEnd ≤ address.toNat →
      address.toNat < m.hi → s.session.process.memory address = .byte (s.contents address) := by
    intro m hm hge hlt
    have hlo : m.lo ≤ m.guardEnd := Nat.le_add_right _ _
    rw [h.cell_eq hm ⟨hlo.trans hge, hlt⟩]
    exact if_neg fun hguard => absurd hguard.2 (by omega)
  have hguard : ∀ m ∈ s.objects.process.mappings, m.InGuard address.toNat →
      s.session.process.memory address = .segv := by
    intro m hm hin
    rw [h.cell_eq hm ⟨hin.1, hin.2.trans_le (h.sized m hm).guard_le⟩]
    exact if_pos hin
  refine ⟨fun m hm hge hlt => ?_, fun hhandler m hm hregistered hin => ?_,
    fun hnone signal hunblocked hhandler => ?_, fun segv bus => ?_⟩
  · rw [Process.access, hbyte m hm hge hlt]
    rfl
  · obtain ⟨k, hk, hindex⟩ := h.findPoolIndex_eq hm hregistered hin
    have hunblocked : sigsegv ∉ s.session.process.mask := h.mask.symm ▸ hsegv
    have haccess : s.session.process.access address =
        .error (s.session.process.deliver sigsegv address) := by
      rw [Process.access, hguard m hm hin]
      exact congrArg Except.error (if_neg hunblocked)
    rw [deliver_of_index hhandler hindex] at haccess
    have haction : s.session.process.dispositions sigsegv = poolSignalAction := by
      rw [hview] at hhandler ⊢
      exact (flagged_of_run hrun).dispositions sigsegv hhandler
    refine ⟨k, _, hk, fun m' hm' hk' => h.eq_of_slot hm hm' hk hk', haccess, rfl,
      Process.setDisposition_dispositions_self, ?_⟩
    change sigsegv ∉ (s.session.process.dispositions sigsegv).maskDuring _ sigsegv
    rwa [haction, maskDuring_poolSignalAction]
  · have houtside : OutsideGuards s.session.process.poolRegistry (some address) := by
      rintro other hother entry hentry hbegin hcovers
      obtain rfl := Option.some.inj hother
      obtain ⟨m, hm, rfl, hin⟩ := h.guard_of_entry hentry ⟨hbegin, hcovers⟩
      exact hnone m hm hentry hin
    rw [Process.fault, if_neg hunblocked, deliver_of_outsideGuards hhandler houtside]
    refine ⟨callPreviousSignalHandler_passesOn ?_ ?_, callPreviousSignalHandler_stderr⟩
    · change s.session.process.previousSigsegv.Own
      rw [hview]
      exact hsound.previous_own.1
    · change s.session.process.previousSigbus.Own
      rw [hview]
      exact hsound.previous_own.2
  · obtain ⟨result, q, hread, hq, hresult⟩ :=
      safeReadUint8_spec ⟨address, segv, bus⟩ hidle
    refine ⟨result, q, hread, by rw [hq], hq.dispositions_eq, fun m hm hin => ?_,
      fun m hm hge hlt hsegv hbus => (hresult _).mpr ⟨⟨hsegv, hbus⟩, hbyte m hm hge hlt⟩⟩
    rw [Option.eq_none_iff_forall_ne_some]
    intro value hvalue
    have hmemory := ((hresult value).mp hvalue).2
    rw [hguard m hm hin] at hmemory
    cases hmemory

end Library

/-! ## The handler in force -/

/-- Once the flag is up, the overflow handler is installed for both signals. -/
def InForce (p : Process) : Prop :=
  p.poolSignalHandlerInstalled = true →
    p.dispositions sigsegv = poolSignalAction ∧ p.dispositions sigbus = poolSignalAction

/-- The program does not change an action itself. -/
def Event.KeepsActions : Event → Prop
  | .install _ _ | .safeRead _ | .observe _ => True
  | .user _ _ | .putBack _ _ => False

def LibraryEvent.KeepsActions : LibraryEvent → Prop
  | .signal event => event.KeepsActions
  | .pool _ | .store _ _ => True

theorem InForce.next (h : InForce t.process) (hidle : t.process.readActive = 0)
    (hkeeps : event.KeepsActions) (hnext : next t event = some u) : InForce u.process := by
  cases event with
  | install segv bus =>
    obtain rfl := Option.some.inj hnext
    cases hflag : t.process.poolSignalHandlerInstalled with
    | true =>
      simp only [install_of_installed hflag]
      exact h
    | false =>
      by_cases hsucceeds : segv = .succeeds ∧ bus = .succeeds
      · obtain ⟨rfl, rfl⟩ := hsucceeds
        simp only [install_succeeds hflag]
        intro _
        have hsegv : ((t.process.setDisposition sigsegv poolSignalAction).setDisposition sigbus
            poolSignalAction).dispositions sigsegv = poolSignalAction :=
          (Process.setDisposition_dispositions_of_ne sigbus_ne_sigsegv.symm).trans
            Process.setDisposition_dispositions_self
        have hbus : ((t.process.setDisposition sigsegv poolSignalAction).setDisposition sigbus
            poolSignalAction).dispositions sigbus = poolSignalAction :=
          Process.setDisposition_dispositions_self
        exact ⟨hsegv, hbus⟩
      · obtain ⟨errno, previous, -, heq⟩ := install_fails hflag hsucceeds
        simp only [heq]
        intro hinstalled
        exact absurd (hflag.symm.trans hinstalled) Bool.false_ne_true
  | safeRead call =>
    obtain ⟨result, q, hread, hq, -⟩ := safeReadUint8_spec call hidle
    simp only [Signals.next, hread] at hnext
    obtain rfl := Option.some.inj hnext
    intro hinstalled
    simp only [hq.dispositions_eq]
    exact h (hq.keepsSaved.installed ▸ hinstalled)
  | observe signal =>
    obtain rfl := Option.some.inj hnext
    exact h
  | user signal action | putBack signal k => exact absurd hkeeps id

namespace Library

variable {outside : UIntPtr → Cell} {contents : UIntPtr → BitVec 8} {s s' : Library}
  {dispositions : SignalNumber → OwnAction} {mask : Finset SignalNumber} {errno : ℤ}
  {e : LibraryEvent}

end Library

end Doost.Signals
