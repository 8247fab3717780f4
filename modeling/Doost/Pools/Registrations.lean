import Doost.Foundations.Seats
import Doost.Foundations.Transition
import Doost.Pools.GuardRegistry

/-!
# Registrations from several threads

`register_pool_guard` claims a slot with a load of its `guard_begin` and two stores after it,
`unregister_pool_guard` clears it with a load and two stores, and `find_pool_index` reads both
words. Here every load and every store is a step of its own, and the steps of any number of threads
interleave.

A load that finds zero does not keep others out, so that two threads can claim one slot
(`slot_claimed_twice`). In runs in which no thread reads a slot as free while another one is about
to store to it, every registered guard has a slot of its own and the finders see just the guards
(`guards_registered_once`). What carries the proof is that there is always a seating of the threads
in the slots, in which those that are still scanning have free slots they have not passed yet.
-/

namespace Doost.Pools

open Seats Transition

/-! ## The parties -/

/-- Where the owner of a guard is. The index is that of the slot the next step is about. -/
inductive GuardPc
  /-- Without a guard. -/
  | idle
  /-- In `register_pool_guard`; next a load of `guard_begin`, or the end of the loop. -/
  | registerLoad (guard : PoolRegistryEntry) (index : ℕ)
  /-- The slot was free; next the store of `guard_end`. -/
  | registerStoreEnd (guard : PoolRegistryEntry) (index : ℕ)
  /-- Next the store of `guard_begin`. -/
  | registerStoreBegin (guard : PoolRegistryEntry) (index : ℕ)
  /-- `register_pool_guard` has returned. -/
  | registered (guard : PoolRegistryEntry)
  /-- In `unregister_pool_guard`; next a load of `guard_begin`, or the end of the loop. -/
  | unregisterLoad (guard : PoolRegistryEntry) (index : ℕ)
  /-- The slot holds the guard; next the store of zero to `guard_begin`. -/
  | unregisterStoreBegin (guard : PoolRegistryEntry) (index : ℕ)
  /-- Next the store of zero to `guard_end`. -/
  | unregisterStoreEnd (guard : PoolRegistryEntry) (index : ℕ)
  deriving DecidableEq, Repr

namespace GuardPc

/-- The guard that is registered, being registered or being unregistered. -/
def guard : GuardPc → Option PoolRegistryEntry
  | idle => none
  | registerLoad guard _ => some guard
  | registerStoreEnd guard _ => some guard
  | registerStoreBegin guard _ => some guard
  | registered guard => some guard
  | unregisterLoad guard _ => some guard
  | unregisterStoreBegin guard _ => some guard
  | unregisterStoreEnd guard _ => some guard

/-- The slot reads as free, and the thread is about to store to it. -/
def StoresTo (i : ℕ) : GuardPc → Prop
  | registerStoreEnd _ index => index = i
  | registerStoreBegin _ index => index = i
  | unregisterStoreEnd _ index => index = i
  | _ => False

end GuardPc

/-- Where a call of `find_pool_index` is. -/
inductive FindPc
  | idle
  /-- Next the load of `guard_begin`, or the end of the loop. -/
  | loadBegin (address : UIntPtr) (index : ℕ)
  /-- Next the load of `guard_end`. -/
  | loadEnd (address : UIntPtr) (index : ℕ) (begin : UIntPtr)
  | returned (result : ℤ)
  deriving DecidableEq, Repr

/-- `g_pool_registry` with the owners of guards and the callers of `find_pool_index`. A thread with
several guards counts as one owner for each. -/
structure Registrations where
  entries : ℕ → PoolRegistryEntry
  guards : ℕ → GuardPc
  finders : ℕ → FindPc

inductive RegistryOp
  | register (thread : ℕ) (guard : PoolRegistryEntry)
  | unregister (thread : ℕ)
  | guardStep (thread : ℕ)
  | find (finder : ℕ) (address : UIntPtr)
  | findStep (finder : ℕ)
  deriving DecidableEq, Repr

/-- The next load or store of the owner of a guard. -/
def guardStep (entries : ℕ → PoolRegistryEntry) :
    GuardPc → Option ((ℕ → PoolRegistryEntry) × GuardPc)
  | .idle => none
  | .registerLoad guard index =>
    if index = kMaxRegisteredPools then some (entries, .registered guard)
    else if (entries index).guardBegin = 0 then some (entries, .registerStoreEnd guard index)
    else some (entries, .registerLoad guard (index + 1))
  | .registerStoreEnd guard index =>
    some (Function.update entries index { entries index with guardEnd := guard.guardEnd },
      .registerStoreBegin guard index)
  | .registerStoreBegin guard index =>
    some (Function.update entries index { entries index with guardBegin := guard.guardBegin },
      .registered guard)
  | .registered _ => none
  | .unregisterLoad guard index =>
    if index = kMaxRegisteredPools then some (entries, .idle)
    else if (entries index).guardBegin = guard.guardBegin then
      some (entries, .unregisterStoreBegin guard index)
    else some (entries, .unregisterLoad guard (index + 1))
  | .unregisterStoreBegin guard index =>
    some (Function.update entries index { entries index with guardBegin := 0 },
      .unregisterStoreEnd guard index)
  | .unregisterStoreEnd _ index =>
    some (Function.update entries index { entries index with guardEnd := 0 }, .idle)

/-- The next load of a call of `find_pool_index`. -/
def findStep (entries : ℕ → PoolRegistryEntry) : FindPc → Option FindPc
  | .idle => none
  | .loadBegin address index =>
    if index = kMaxRegisteredPools then some (.returned (-1))
    else if (entries index).guardBegin = 0 then some (.loadBegin address (index + 1))
    else some (.loadEnd address index (entries index).guardBegin)
  | .loadEnd address index begin =>
    if begin ≤ address ∧ address < (entries index).guardEnd then some (.returned index)
    else some (.loadBegin address (index + 1))
  | .returned _ => none

namespace Registrations

/-- No pool has been made. -/
def start : Registrations := ⟨fun _ => ⟨0, 0⟩, fun _ => .idle, fun _ => .idle⟩

def next (s : Registrations) : RegistryOp → Option Registrations
  | .register t guard =>
    match s.guards t with
    | .idle => some { s with guards := Function.update s.guards t (.registerLoad guard 0) }
    | _ => none
  | .unregister t =>
    match s.guards t with
    | .registered guard =>
      if guard.guardBegin = 0 then some { s with guards := Function.update s.guards t .idle }
      else some { s with guards := Function.update s.guards t (.unregisterLoad guard 0) }
    | _ => none
  | .guardStep t => (guardStep s.entries (s.guards t)).map fun moved =>
      { s with entries := moved.1, guards := Function.update s.guards t moved.2 }
  | .find f address =>
    match s.finders f with
    | .loadBegin _ _ => none
    | .loadEnd _ _ _ => none
    | _ => some { s with finders := Function.update s.finders f (.loadBegin address 0) }
  | .findStep f => (findStep s.entries (s.finders f)).map fun pc =>
      { s with finders := Function.update s.finders f pc }

/-- The threads with a guard. -/
def live (s : Registrations) : Set ℕ := {t | s.guards t ≠ .idle}

/-- What the callers promise: a guard starts above address zero, is not empty, and lies apart from
the other guards, of which there are never more than the registry has slots. -/
def Calls (s : Registrations) : RegistryOp → Prop
  | .register _ guard => guard.guardBegin ≠ 0 ∧ guard.guardBegin < guard.guardEnd ∧
      (∀ u other, (s.guards u).guard = some other →
        guard.guardEnd ≤ other.guardBegin ∨ other.guardEnd ≤ guard.guardBegin) ∧
      s.live.encard < kMaxRegisteredPools
  | _ => True

/-- A thread that scans for a free slot does not read one as free that another thread is about to
store to. -/
def ReadsSettled (s : Registrations) : RegistryOp → Prop
  | .guardStep t => ∀ guard i, s.guards t = .registerLoad guard i →
      (s.entries i).guardBegin = 0 → ∀ u, ¬ (s.guards u).StoresTo i
  | _ => True

/-! ## The seating -/

/-- What a thread has to do with its seat, whose slot holds `entry`. -/
def SeatOk (entry : PoolRegistryEntry) (seat : ℕ) : GuardPc → Prop
  | .idle => True
  | .registerLoad _ index => index ≤ seat ∧ entry.guardBegin = 0
  | .registerStoreEnd _ index => index = seat ∧ entry.guardBegin = 0
  | .registerStoreBegin guard index =>
    index = seat ∧ entry.guardBegin = 0 ∧ entry.guardEnd = guard.guardEnd
  | .registered guard => entry = guard
  | .unregisterLoad guard index => index ≤ seat ∧ entry = guard
  | .unregisterStoreBegin guard index => index = seat ∧ entry = guard
  | .unregisterStoreEnd _ index => index = seat ∧ entry.guardBegin = 0

/-- What holds between two steps, with the threads seated in the slots. -/
structure Ok (s : Registrations) (seat : ℕ → ℕ) : Prop where
  seated : Seated kMaxRegisteredPools s.live seat
  place : ∀ t, SeatOk (s.entries (seat t)) (seat t) (s.guards t)
  taken : ∀ i < kMaxRegisteredPools, (s.entries i).guardBegin ≠ 0 → ∃ t ∈ s.live, seat t = i
  nonempty : ∀ t guard, (s.guards t).guard = some guard →
    guard.guardBegin ≠ 0 ∧ guard.guardBegin < guard.guardEnd
  apart : ∀ t u guard other, t ≠ u → (s.guards t).guard = some guard →
    (s.guards u).guard = some other →
    guard.guardEnd ≤ other.guardBegin ∨ other.guardEnd ≤ guard.guardBegin

section

variable {s s' : Registrations} {seat : ℕ → ℕ} {t u i : ℕ} {pc : GuardPc}
  {guard other : PoolRegistryEntry}

theorem live_of_guard (h : (s.guards t).guard = some guard) : t ∈ s.live := by
  intro hidle
  rw [hidle] at h
  cases h

theorem live_update_of_ne_idle (hpc : pc ≠ .idle) :
    live { s with guards := Function.update s.guards t pc } = insert t s.live := by
  ext u
  rcases eq_or_ne u t with rfl | hne
  · simp [live, hpc]
  · simp [live, hne]

theorem live_update_idle : live { s with guards := Function.update s.guards t .idle } ⊆ s.live := by
  intro u hu
  rcases eq_or_ne u t with rfl | hne
  · simp [live] at hu
  · simpa [live, hne] using hu

/-- A taken slot holds the guard of the thread that sits there. -/
theorem Ok.guard_of_taken (h : s.Ok seat) (hi : i < kMaxRegisteredPools)
    (hbegin : (s.entries i).guardBegin ≠ 0) :
    ∃ t, seat t = i ∧ (s.guards t).guard = some (s.entries i) := by
  obtain ⟨t, ht, rfl⟩ := h.taken i hi hbegin
  refine ⟨t, rfl, ?_⟩
  have hplace := h.place t
  cases hpc : s.guards t with
  | idle => exact absurd hpc ht
  | registerLoad guard index | registerStoreEnd guard index | unregisterStoreEnd guard index =>
    rw [hpc] at hplace
    exact absurd hplace.2 hbegin
  | registerStoreBegin guard index =>
    rw [hpc] at hplace
    exact absurd hplace.2.1 hbegin
  | registered guard =>
    rw [hpc] at hplace
    exact congrArg some hplace.symm
  | unregisterLoad guard index | unregisterStoreBegin guard index =>
    rw [hpc] at hplace
    exact congrArg some hplace.2.symm

/-- No slot but its own holds the begin of a thread's guard. -/
theorem Ok.seat_of_begin (h : s.Ok seat) (ht : (s.guards t).guard = some guard)
    (hi : i < kMaxRegisteredPools) (hbegin : (s.entries i).guardBegin = guard.guardBegin) :
    seat t = i := by
  obtain ⟨hne, hlt⟩ := h.nonempty t guard ht
  obtain ⟨u, hseat, hu⟩ := h.guard_of_taken hi (hbegin ▸ hne)
  rcases eq_or_ne t u with rfl | htu
  · exact hseat
  · -- two guards that lie apart do not begin at one address
    have hlt' := (h.nonempty u _ hu).2
    have hapart := h.apart t u guard _ htu ht hu
    rw [hbegin] at hlt' hapart
    rw [BitVec.lt_def] at hlt hlt'
    rw [BitVec.le_def, BitVec.le_def] at hapart
    omega

/-- Writes to the slot of one thread leave the others as they are. -/
theorem Ok.place_other {entries : ℕ → PoolRegistryEntry} (h : s.Ok seat) (ht : t ∈ s.live)
    (hentries : ∀ i, i ≠ seat t → entries i = s.entries i) (hne : u ≠ t) :
    SeatOk (entries (seat u)) (seat u) (s.guards u) := by
  by_cases hu : u ∈ s.live
  · rw [hentries _ fun heq => hne (h.seated.sole u hu t ht heq)]
    exact h.place u
  · have hidle : s.guards u = .idle := not_not.mp hu
    rw [hidle]
    trivial

/-- A step that keeps the thread's guard and writes at most to the thread's own slot. -/
theorem Ok.move {entries : ℕ → PoolRegistryEntry} (h : s.Ok seat)
    (ht : (s.guards t).guard = some guard) (hpc : pc.guard = some guard)
    (hentries : ∀ i, i ≠ seat t → entries i = s.entries i)
    (hplace : SeatOk (entries (seat t)) (seat t) pc) :
    Ok ⟨entries, Function.update s.guards t pc, s.finders⟩ seat := by
  have hlive := live_of_guard ht
  have hidle : pc ≠ .idle := by
    rintro rfl
    cases hpc
  have hsame : live ⟨entries, Function.update s.guards t pc, s.finders⟩ = s.live :=
    (live_update_of_ne_idle hidle).trans (Set.insert_eq_of_mem hlive)
  have hguard : ∀ u, (Function.update s.guards t pc u).guard = (s.guards u).guard := by
    intro u
    rcases eq_or_ne u t with rfl | hne
    · rw [Function.update_self, hpc, ht]
    · rw [Function.update_of_ne hne]
  refine ⟨hsame ▸ h.seated, fun u => ?_, fun i hi hbegin => ?_, fun u g hu => ?_,
    fun u v g g' huv hu hv => ?_⟩
  · simp only
    rcases eq_or_ne u t with rfl | hne
    · rwa [Function.update_self]
    · rw [Function.update_of_ne hne]
      exact h.place_other hlive hentries hne
  · rw [hsame]
    rcases eq_or_ne i (seat t) with rfl | hne
    · exact ⟨t, hlive, rfl⟩
    · simp only [hentries i hne] at hbegin
      exact h.taken i hi hbegin
  · exact h.nonempty u g (hguard u ▸ hu)
  · exact h.apart u v g g' huv (hguard u ▸ hu) (hguard v ▸ hv)

/-- A thread whose slot reads as free gives up its guard. -/
theorem Ok.depart {entries : ℕ → PoolRegistryEntry} (h : s.Ok seat) (ht : t ∈ s.live)
    (hentries : ∀ i, i ≠ seat t → entries i = s.entries i)
    (hfree : (entries (seat t)).guardBegin = 0) :
    Ok ⟨entries, Function.update s.guards t .idle, s.finders⟩ seat := by
  have hguard : ∀ u g, (Function.update s.guards t .idle u).guard = some g →
      u ≠ t ∧ (s.guards u).guard = some g := by
    intro u g hu
    rcases eq_or_ne u t with rfl | hne
    · rw [Function.update_self] at hu
      cases hu
    · rw [Function.update_of_ne hne] at hu
      exact ⟨hne, hu⟩
  refine ⟨h.seated.leave live_update_idle, fun u => ?_, fun i hi hbegin => ?_,
    fun u g hu => h.nonempty u g (hguard u g hu).2,
    fun u v g g' huv hu hv => h.apart u v g g' huv (hguard u g hu).2 (hguard v g' hv).2⟩
  · simp only
    rcases eq_or_ne u t with rfl | hne
    · rw [Function.update_self]
      trivial
    · rw [Function.update_of_ne hne]
      exact h.place_other ht hentries hne
  · simp only at hbegin
    rcases eq_or_ne i (seat t) with rfl | hne
    · exact absurd hfree hbegin
    · rw [hentries i hne] at hbegin
      obtain ⟨u, hu, rfl⟩ := h.taken i hi hbegin
      refine ⟨u, ?_, rfl⟩
      have hut : u ≠ t := fun heq => hne (heq ▸ rfl)
      simpa [live, hut] using hu

/-- A new guard gets a slot that is nobody's. -/
theorem Ok.arrive (h : s.Ok seat) (hidle : s.guards t = .idle)
    (hcalls : s.Calls (.register t guard)) :
    ∃ seat', Ok { s with guards := Function.update s.guards t (.registerLoad guard 0) } seat' := by
  obtain ⟨hbegin, hlt, hapart, hcard⟩ := hcalls
  obtain ⟨i, hi, hnobody⟩ := Seated.exists_free seat hcard
  have ht : t ∉ s.live := fun ht => ht hidle
  have hne : GuardPc.registerLoad guard 0 ≠ .idle := by simp
  have hold : ∀ u ≠ t, Function.update s.guards t (.registerLoad guard 0) u = s.guards u :=
    fun u hut => Function.update_of_ne hut ..
  refine ⟨Function.update seat t i, ?_, fun u => ?_, fun j hj hbegin => ?_, fun u g hu => ?_,
    fun u v g g' huv hu hv => ?_⟩
  · rw [live_update_of_ne_idle hne]
    exact h.seated.arrive hi hnobody ht
  · simp only
    rcases eq_or_ne u t with rfl | hut
    · rw [Function.update_self, Function.update_self]
      refine ⟨Nat.zero_le i, ?_⟩
      by_contra hbegin
      obtain ⟨v, hv, hseat⟩ := h.taken i hi hbegin
      exact hnobody v hv hseat
    · rw [hold u hut, Function.update_of_ne hut]
      exact h.place u
  · obtain ⟨u, hu, hseat⟩ := h.taken j hj hbegin
    have hut : u ≠ t := fun heq => ht (heq ▸ hu)
    refine ⟨u, ?_, (Function.update_of_ne hut ..).trans hseat⟩
    rw [live_update_of_ne_idle hne]
    exact Or.inr hu
  · simp only at hu
    rcases eq_or_ne u t with rfl | hut
    · rw [Function.update_self] at hu
      obtain rfl := Option.some.inj hu
      exact ⟨hbegin, hlt⟩
    · rw [hold u hut] at hu
      exact h.nonempty u g hu
  · simp only at hu hv
    rcases eq_or_ne u t with rfl | hut
    · rw [Function.update_self] at hu
      rw [hold v huv.symm] at hv
      obtain rfl := Option.some.inj hu
      exact hapart v g' hv
    · rw [hold u hut] at hu
      rcases eq_or_ne v t with rfl | hvt
      · rw [Function.update_self] at hv
        obtain rfl := Option.some.inj hv
        exact (hapart u g hu).symm
      · rw [hold v hvt] at hv
        exact h.apart u v g g' huv hu hv

/-- A thread that reads a slot as free can be seated there: the thread that was to sit there is
still scanning and gets the other seat. -/
theorem Ok.trade (h : s.Ok seat) (ht : s.guards t = .registerLoad guard i)
    (hfree : (s.entries i).guardBegin = 0) (hsettled : ∀ u, ¬ (s.guards u).StoresTo i) :
    ∃ seat', s.Ok seat' ∧ seat' t = i := by
  have hguard : (s.guards t).guard = some guard := by rw [ht]; rfl
  have hlive := live_of_guard hguard
  obtain ⟨hle, hfree'⟩ : i ≤ seat t ∧ (s.entries (seat t)).guardBegin = 0 := by
    have hplace := h.place t
    rwa [ht] at hplace
  have hi : i < kMaxRegisteredPools := hle.trans_lt (h.seated.lt t hlive)
  refine ⟨fun u => Equiv.swap i (seat t) (seat u), ⟨h.seated.trade hlive hi, fun u => ?_,
    fun j hj hbegin => ?_, h.nonempty, h.apart⟩, Equiv.swap_apply_right ..⟩
  · have hplace := h.place u
    rcases eq_or_ne (seat u) i with hui | hui
    · rw [hui, Equiv.swap_apply_left]
      rw [hui] at hplace
      cases hpc : s.guards u with
      | idle => trivial
      | registerLoad g index =>
        rw [hpc] at hplace
        exact ⟨hplace.1.trans hle, hfree'⟩
      | registerStoreEnd g index | registerStoreBegin g index | unregisterStoreEnd g index =>
        rw [hpc] at hplace
        have hnot := hsettled u
        rw [hpc] at hnot
        exact absurd hplace.1 hnot
      | registered g =>
        -- the slot of a registered guard does not read as free
        rw [hpc] at hplace
        have hne := (h.nonempty u g (by rw [hpc]; rfl)).1
        exact absurd (hplace ▸ hfree) hne
      | unregisterLoad g index | unregisterStoreBegin g index =>
        rw [hpc] at hplace
        have hne := (h.nonempty u g (by rw [hpc]; rfl)).1
        exact absurd (hplace.2 ▸ hfree) hne
    · rcases eq_or_ne (seat u) (seat t) with hut | hut
      · rw [hut, Equiv.swap_apply_right]
        by_cases hu : u ∈ s.live
        · obtain rfl := h.seated.sole u hu t hlive hut
          rw [ht]
          exact ⟨le_rfl, hfree⟩
        · have hidle : s.guards u = .idle := not_not.mp hu
          rw [hidle]
          trivial
      · rwa [Equiv.swap_apply_of_ne_of_ne hui hut]
  · obtain ⟨u, hu, rfl⟩ := h.taken j hj hbegin
    refine ⟨u, hu, Equiv.swap_apply_of_ne_of_ne ?_ ?_⟩
    · rintro heq
      exact hbegin (heq ▸ hfree)
    · rintro heq
      exact hbegin (heq ▸ hfree')

/-! ## Every step -/

theorem Ok.guardStep {entries : ℕ → PoolRegistryEntry} (h : s.Ok seat)
    (hsettled : s.ReadsSettled (.guardStep t))
    (hstep : Pools.guardStep s.entries (s.guards t) = some (entries, pc)) :
    ∃ seat', Ok ⟨entries, Function.update s.guards t pc, s.finders⟩ seat' := by
  have hplace := h.place t
  have hseat : t ∈ s.live → seat t < kMaxRegisteredPools := h.seated.lt t
  cases hpc : s.guards t with
  | idle | registered guard =>
    rw [hpc] at hstep
    cases hstep
  | registerLoad guard i =>
    have hguard : (s.guards t).guard = some guard := by rw [hpc]; rfl
    have hlt := hseat (live_of_guard hguard)
    rw [hpc] at hstep hplace
    obtain ⟨hle, hfree⟩ := hplace
    simp only [Pools.guardStep] at hstep
    split at hstep
    · omega
    · split at hstep <;> cases hstep
      · rename_i hzero
        obtain ⟨seat', h', hseat'⟩ := h.trade hpc hzero (hsettled guard i hpc hzero)
        exact ⟨seat', h'.move hguard rfl (fun _ _ => rfl) ⟨hseat'.symm, hseat' ▸ hzero⟩⟩
      · rename_i htaken
        -- the thread's own slot is free, so it lies further on
        have hne : i ≠ seat t := fun heq => htaken (heq ▸ hfree)
        exact ⟨seat, h.move hguard rfl (fun _ _ => rfl) ⟨by omega, hfree⟩⟩
  | registerStoreEnd guard i =>
    have hguard : (s.guards t).guard = some guard := by rw [hpc]; rfl
    rw [hpc] at hstep hplace
    obtain ⟨rfl, hfree⟩ := hplace
    cases hstep
    refine ⟨seat, h.move hguard rfl (fun j hj => Function.update_of_ne hj ..) ?_⟩
    rw [Function.update_self]
    exact ⟨rfl, hfree, rfl⟩
  | registerStoreBegin guard i =>
    have hguard : (s.guards t).guard = some guard := by rw [hpc]; rfl
    rw [hpc] at hstep hplace
    obtain ⟨rfl, -, hend⟩ := hplace
    cases hstep
    refine ⟨seat, h.move hguard rfl (fun j hj => Function.update_of_ne hj ..) ?_⟩
    rw [Function.update_self]
    exact congrArg (PoolRegistryEntry.mk guard.guardBegin) hend
  | unregisterLoad guard i =>
    have hguard : (s.guards t).guard = some guard := by rw [hpc]; rfl
    have hlt := hseat (live_of_guard hguard)
    rw [hpc] at hstep hplace
    obtain ⟨hle, hentry⟩ := hplace
    simp only [Pools.guardStep] at hstep
    split at hstep
    · omega
    · split at hstep <;> cases hstep
      · rename_i hbegin
        have hi := h.seat_of_begin hguard (by omega) hbegin
        exact ⟨seat, h.move hguard rfl (fun _ _ => rfl) ⟨hi.symm, hentry⟩⟩
      · rename_i hbegin
        have hne : i ≠ seat t := by
          rintro rfl
          exact hbegin (congrArg PoolRegistryEntry.guardBegin hentry)
        exact ⟨seat, h.move hguard rfl (fun _ _ => rfl) ⟨by omega, hentry⟩⟩
  | unregisterStoreBegin guard i =>
    have hguard : (s.guards t).guard = some guard := by rw [hpc]; rfl
    rw [hpc] at hstep hplace
    obtain ⟨rfl, -⟩ := hplace
    cases hstep
    refine ⟨seat, h.move hguard rfl (fun j hj => Function.update_of_ne hj ..) ?_⟩
    rw [Function.update_self]
    exact ⟨rfl, rfl⟩
  | unregisterStoreEnd guard i =>
    have hguard : (s.guards t).guard = some guard := by rw [hpc]; rfl
    have hlive := live_of_guard hguard
    rw [hpc] at hstep hplace
    obtain ⟨rfl, hfree⟩ := hplace
    cases hstep
    refine ⟨seat, h.depart hlive (fun j hj => Function.update_of_ne hj ..) ?_⟩
    rw [Function.update_self]
    exact hfree

/-- **Every step keeps a seating.** -/
theorem Ok.next {op : RegistryOp} (h : ∃ seat, s.Ok seat)
    (hop : s.Calls op ∧ s.ReadsSettled op) (hnext : s.next op = some s') :
    ∃ seat, s'.Ok seat := by
  obtain ⟨seat, h⟩ := h
  cases op with
  | register t guard =>
    simp only [Registrations.next] at hnext
    split at hnext <;> cases hnext
    exact h.arrive ‹_› hop.1
  | unregister t =>
    simp only [Registrations.next] at hnext
    split at hnext
    swap
    · cases hnext
    rename_i guard hpc
    have hguard : (s.guards t).guard = some guard := by rw [hpc]; rfl
    rw [if_neg (h.nonempty t guard hguard).1] at hnext
    cases hnext
    have hplace := h.place t
    rw [hpc] at hplace
    exact ⟨seat, h.move hguard rfl (fun _ _ => rfl) ⟨Nat.zero_le _, hplace⟩⟩
  | guardStep t =>
    obtain ⟨⟨entries, pc⟩, hstep, rfl⟩ := Option.map_eq_some_iff.mp hnext
    exact h.guardStep hop.2 hstep
  | find f address =>
    simp only [Registrations.next] at hnext
    split at hnext <;> cases hnext
    all_goals exact ⟨seat, h.seated, h.place, h.taken, h.nonempty, h.apart⟩
  | findStep f =>
    obtain ⟨pc, -, rfl⟩ := Option.map_eq_some_iff.mp hnext
    exact ⟨seat, h.seated, h.place, h.taken, h.nonempty, h.apart⟩

theorem start_ok : start.Ok id := by
  have hlive : start.live = ∅ := by
    ext t
    simp [live, start]
  exact
    { seated := hlive ▸ .empty id
      place := fun _ => trivial
      taken := fun _ _ hbegin => absurd rfl hbegin
      nonempty := fun _ _ ht => by cases ht
      apart := fun _ _ _ _ _ ht => by cases ht }

theorem ok_of_run {ops : List RegistryOp} (hcalls : Along next Calls start ops)
    (hsettled : Along next ReadsSettled start ops) (hrun : run next start ops = some s) :
    ∃ seat, s.Ok seat :=
  (hcalls.and hsettled).invariant _ (fun _ _ _ h hop hnext => Ok.next h hop hnext)
    ⟨id, start_ok⟩ hrun

/-! ## A search that runs alone -/

/-- The slot is taken, and the address lies in its guard. -/
def Covers (entry : PoolRegistryEntry) (address : UIntPtr) : Prop :=
  entry.guardBegin ≠ 0 ∧ entry.guardBegin ≤ address ∧ address < entry.guardEnd

/-- The caller `f` of `find_pool_index` has come to `pc`. -/
def findAt (s : Registrations) (f : ℕ) (pc : FindPc) : Registrations :=
  { s with finders := Function.update s.finders f pc }

theorem run_findStep {f n : ℕ} {pc pc' : FindPc} (hstep : findStep s.entries pc = some pc')
    (hrun : run next (s.findAt f pc') (List.replicate n (.findStep f)) = some s') :
    run next (s.findAt f pc) (List.replicate (n + 1) (.findStep f)) = some s' := by
  have hnext : (s.findAt f pc).next (.findStep f) = some (s.findAt f pc') := by
    simp only [next, findAt, Function.update_self, hstep, Option.map_some, Function.update_idem]
  rw [List.replicate_succ, run_cons, hnext]
  exact hrun

/-- The loads of one slot: the search returns its index, or goes on to the next slot. -/
theorem run_find_slot (s : Registrations) (f : ℕ) (address : UIntPtr)
    (hi : i < kMaxRegisteredPools) :
    ∃ n, (Covers (s.entries i) address ∧
        run next (s.findAt f (.loadBegin address i)) (List.replicate n (.findStep f)) =
          some (s.findAt f (.returned i))) ∨
      (¬ Covers (s.entries i) address ∧ ∀ m s',
        run next (s.findAt f (.loadBegin address (i + 1))) (List.replicate m (.findStep f)) =
          some s' →
        run next (s.findAt f (.loadBegin address i)) (List.replicate (m + n) (.findStep f)) =
          some s') := by
  have hend : i ≠ kMaxRegisteredPools := hi.ne
  rcases eq_or_ne (s.entries i).guardBegin 0 with hzero | hne
  · have hstep : findStep s.entries (.loadBegin address i) = some (.loadBegin address (i + 1)) := by
      simp only [findStep, if_neg hend, if_pos hzero]
    exact ⟨1, Or.inr ⟨fun hcovers => hcovers.1 hzero, fun m s' hrun => run_findStep hstep hrun⟩⟩
  · have hload : findStep s.entries (.loadBegin address i) =
        some (.loadEnd address i (s.entries i).guardBegin) := by
      simp only [findStep, if_neg hend, if_neg hne]
    by_cases hin : (s.entries i).guardBegin ≤ address ∧ address < (s.entries i).guardEnd
    · have hstep : findStep s.entries (.loadEnd address i (s.entries i).guardBegin) =
          some (.returned i) := if_pos hin
      exact ⟨2, Or.inl ⟨⟨hne, hin⟩, run_findStep hload (run_findStep hstep rfl)⟩⟩
    · have hstep : findStep s.entries (.loadEnd address i (s.entries i).guardBegin) =
          some (.loadBegin address (i + 1)) := if_neg hin
      exact ⟨2, Or.inr ⟨fun hcovers => hin hcovers.2,
        fun m s' hrun => run_findStep hload (run_findStep hstep hrun)⟩⟩

/-- From slot `i` on, a search that runs alone returns the index of a slot that covers the address,
or `-1` if there is none. -/
theorem run_find (s : Registrations) (f : ℕ) (address : UIntPtr) (hi : i ≤ kMaxRegisteredPools) :
    ∃ n r, run next (s.findAt f (.loadBegin address i)) (List.replicate n (.findStep f)) =
        some (s.findAt f (.returned r)) ∧
      ((∃ j < kMaxRegisteredPools, r = j ∧ Covers (s.entries j) address) ∨
        r = -1 ∧ ∀ j, i ≤ j → j < kMaxRegisteredPools → ¬ Covers (s.entries j) address) := by
  induction hn : kMaxRegisteredPools - i generalizing i with
  | zero =>
    have hstep : findStep s.entries (.loadBegin address i) = some (.returned (-1)) :=
      if_pos (by omega)
    exact ⟨1, -1, run_findStep hstep rfl, Or.inr ⟨rfl, fun j hj hj' => by omega⟩⟩
  | succ n ih =>
    have hlt : i < kMaxRegisteredPools := by omega
    obtain ⟨n, ⟨hcovers, hrun⟩ | ⟨hnot, hrun⟩⟩ := run_find_slot s f address hlt
    · exact ⟨n, i, hrun, Or.inl ⟨i, hlt, rfl, hcovers⟩⟩
    · obtain ⟨m, r, hrest, hresult⟩ := ih (i := i + 1) (by omega) (by omega)
      refine ⟨m + n, r, hrun m _ hrest, ?_⟩
      rcases hresult with hfound | ⟨rfl, hnone⟩
      · exact Or.inl hfound
      · refine Or.inr ⟨rfl, fun j hj hj' => ?_⟩
        rcases hj.eq_or_lt with rfl | hj
        · exact hnot
        · exact hnone j hj hj'

/-! ## Calls that run alone -/

/-- The slots from `i` on. -/
def slotsFrom (entries : ℕ → PoolRegistryEntry) (i : ℕ) : List PoolRegistryEntry :=
  (List.range' i (kMaxRegisteredPools - i)).map entries

/-- `g_pool_registry` as a list. -/
def registry (s : Registrations) : List PoolRegistryEntry := slotsFrom s.entries 0

/-- The owner `t` of a guard has come to `pc`, with these entries in the registry. -/
def guardAt (s : Registrations) (t : ℕ) (entries : ℕ → PoolRegistryEntry) (pc : GuardPc) :
    Registrations :=
  ⟨entries, Function.update s.guards t pc, s.finders⟩

theorem slotsFrom_end (entries : ℕ → PoolRegistryEntry) :
    slotsFrom entries kMaxRegisteredPools = [] := by
  simp [slotsFrom]

theorem slotsFrom_of_lt (entries : ℕ → PoolRegistryEntry) (hi : i < kMaxRegisteredPools) :
    slotsFrom entries i = entries i :: slotsFrom entries (i + 1) := by
  obtain ⟨n, hn⟩ : ∃ n, kMaxRegisteredPools - i = n + 1 := ⟨kMaxRegisteredPools - i - 1, by omega⟩
  have hrest : kMaxRegisteredPools - (i + 1) = n := by omega
  rw [slotsFrom, slotsFrom, hn, hrest, List.range'_succ, List.map_cons]

/-- A write to a slot leaves the later ones. -/
theorem slotsFrom_update (entries : ℕ → PoolRegistryEntry) (entry : PoolRegistryEntry) :
    slotsFrom (Function.update entries i entry) (i + 1) = slotsFrom entries (i + 1) := by
  refine List.map_congr_left fun j hj => Function.update_of_ne ?_ ..
  have hlt := (List.mem_range'_1.mp hj).1
  omega

theorem run_guardStep {n : ℕ} {entries entries' : ℕ → PoolRegistryEntry} {pc pc' : GuardPc}
    (hstep : Pools.guardStep entries pc = some (entries', pc'))
    (hrun : run next (s.guardAt t entries' pc') (List.replicate n (.guardStep t)) = some s') :
    run next (s.guardAt t entries pc) (List.replicate (n + 1) (.guardStep t)) = some s' := by
  have hnext : (s.guardAt t entries pc).next (.guardStep t) = some (s.guardAt t entries' pc') := by
    simp only [next, guardAt, Function.update_self, hstep, Option.map_some, Function.update_idem]
  rw [List.replicate_succ, run_cons, hnext]
  exact hrun

/-- A scan that runs alone: from slot `i` on it overwrites the first slot whose begin is `key`, as
`edit` does to the list of the slots. -/
theorem run_scan (s : Registrations) (t : ℕ)
    (edit : List PoolRegistryEntry → List PoolRegistryEntry) {scan : ℕ → GuardPc} {done : GuardPc}
    {key : UIntPtr} {entry' : PoolRegistryEntry}
    (hend : ∀ entries, Pools.guardStep entries (scan kMaxRegisteredPools) = some (entries, done))
    (hpass : ∀ entries i, i ≠ kMaxRegisteredPools → (entries i).guardBegin ≠ key →
      Pools.guardStep entries (scan i) = some (entries, scan (i + 1)))
    (hstore : ∀ entries i, i ≠ kMaxRegisteredPools → (entries i).guardBegin = key → ∃ n,
      run next (s.guardAt t entries (scan i)) (List.replicate n (.guardStep t)) =
        some (s.guardAt t (Function.update entries i entry') done))
    (hnil : edit [] = []) (hedit : ∀ entry l, edit (entry :: l) =
      if entry.guardBegin = key then entry' :: l else entry :: edit l)
    (entries : ℕ → PoolRegistryEntry) (hi : i ≤ kMaxRegisteredPools) :
    ∃ n entries', run next (s.guardAt t entries (scan i)) (List.replicate n (.guardStep t)) =
        some (s.guardAt t entries' done) ∧
      slotsFrom entries' i = edit (slotsFrom entries i) ∧ ∀ j < i, entries' j = entries j := by
  induction hn : kMaxRegisteredPools - i generalizing i with
  | zero =>
    obtain rfl : i = kMaxRegisteredPools := by omega
    refine ⟨1, entries, run_guardStep (hend entries) rfl, ?_, fun _ _ => rfl⟩
    rw [slotsFrom_end, hnil]
  | succ n ih =>
    have hlt : i < kMaxRegisteredPools := by omega
    rcases eq_or_ne (entries i).guardBegin key with hkey | hne
    · obtain ⟨m, hrun⟩ := hstore entries i hlt.ne hkey
      refine ⟨m, _, hrun, ?_, fun j hj => Function.update_of_ne hj.ne ..⟩
      rw [slotsFrom_of_lt _ hlt, slotsFrom_of_lt entries hlt, slotsFrom_update,
        Function.update_self, hedit, if_pos hkey]
    · obtain ⟨m, entries', hrun, hslots, hbelow⟩ := ih (i := i + 1) (by omega) (by omega)
      refine ⟨m + 1, entries', run_guardStep (hpass entries i hlt.ne hne) hrun, ?_,
        fun j hj => hbelow j (by omega)⟩
      rw [slotsFrom_of_lt _ hlt, slotsFrom_of_lt entries hlt, hedit, if_neg hne, hslots,
        hbelow i (Nat.lt_succ_self i)]

/-- A registration that runs alone does what `registerPoolGuard` does. -/
theorem run_register (s : Registrations) (t : ℕ) (guard : PoolRegistryEntry) :
    ∃ n entries', run next (s.guardAt t s.entries (.registerLoad guard 0))
        (List.replicate n (.guardStep t)) = some (s.guardAt t entries' (.registered guard)) ∧
      slotsFrom entries' 0 =
        registerPoolGuard guard.guardBegin guard.guardEnd (slotsFrom s.entries 0) := by
  have hend : ∀ entries, Pools.guardStep entries (.registerLoad guard kMaxRegisteredPools) =
      some (entries, .registered guard) := by
    intro entries
    rw [Pools.guardStep, if_pos rfl]
  have hpass : ∀ (entries : ℕ → PoolRegistryEntry) i, i ≠ kMaxRegisteredPools →
      (entries i).guardBegin ≠ 0 → Pools.guardStep entries (.registerLoad guard i) =
        some (entries, .registerLoad guard (i + 1)) := by
    intro entries i hi hne
    simp only [Pools.guardStep, if_neg hi, if_neg hne]
  have hstore : ∀ (entries : ℕ → PoolRegistryEntry) i, i ≠ kMaxRegisteredPools →
      (entries i).guardBegin = 0 → ∃ n, run next (s.guardAt t entries (.registerLoad guard i))
        (List.replicate n (.guardStep t)) =
          some (s.guardAt t (Function.update entries i guard) (.registered guard)) := by
    intro entries i hi hzero
    have hload : Pools.guardStep entries (.registerLoad guard i) =
        some (entries, .registerStoreEnd guard i) := by
      simp only [Pools.guardStep, if_neg hi, if_pos hzero]
    refine ⟨3, run_guardStep hload (run_guardStep rfl (run_guardStep rfl ?_))⟩
    rw [Function.update_self, Function.update_idem]
    rfl
  obtain ⟨n, entries', hrun, hslots, -⟩ :=
    run_scan s t (registerPoolGuard guard.guardBegin guard.guardEnd) hend hpass hstore rfl
      (fun _ _ => rfl) s.entries (Nat.zero_le kMaxRegisteredPools)
  exact ⟨n, entries', hrun, hslots⟩

/-- An unregistration that runs alone does what `clearPoolGuard` does. -/
theorem run_unregister (s : Registrations) (t : ℕ) (guard : PoolRegistryEntry) :
    ∃ n entries', run next (s.guardAt t s.entries (.unregisterLoad guard 0))
        (List.replicate n (.guardStep t)) = some (s.guardAt t entries' .idle) ∧
      slotsFrom entries' 0 = clearPoolGuard guard.guardBegin (slotsFrom s.entries 0) := by
  have hend : ∀ entries, Pools.guardStep entries (.unregisterLoad guard kMaxRegisteredPools) =
      some (entries, .idle) := by
    intro entries
    rw [Pools.guardStep, if_pos rfl]
  have hpass : ∀ (entries : ℕ → PoolRegistryEntry) i, i ≠ kMaxRegisteredPools →
      (entries i).guardBegin ≠ guard.guardBegin →
      Pools.guardStep entries (.unregisterLoad guard i) =
        some (entries, .unregisterLoad guard (i + 1)) := by
    intro entries i hi hne
    simp only [Pools.guardStep, if_neg hi, if_neg hne]
  have hstore : ∀ (entries : ℕ → PoolRegistryEntry) i, i ≠ kMaxRegisteredPools →
      (entries i).guardBegin = guard.guardBegin → ∃ n,
      run next (s.guardAt t entries (.unregisterLoad guard i)) (List.replicate n (.guardStep t)) =
        some (s.guardAt t (Function.update entries i ⟨0, 0⟩) .idle) := by
    intro entries i hi hbegin
    have hload : Pools.guardStep entries (.unregisterLoad guard i) =
        some (entries, .unregisterStoreBegin guard i) := by
      simp only [Pools.guardStep, if_neg hi, if_pos hbegin]
    refine ⟨3, run_guardStep hload (run_guardStep rfl (run_guardStep rfl ?_))⟩
    rw [Function.update_self, Function.update_idem]
    rfl
  obtain ⟨n, entries', hrun, hslots, -⟩ :=
    run_scan s t (clearPoolGuard guard.guardBegin) hend hpass hstore rfl (fun _ _ => rfl)
      s.entries (Nat.zero_le kMaxRegisteredPools)
  exact ⟨n, entries', hrun, hslots⟩

/-- A call of `register_pool_guard` that runs alone is the sequential one. -/
theorem register_alone (hidle : s.guards t = .idle) (guard : PoolRegistryEntry) :
    ∃ n s', run next s (.register t guard :: List.replicate n (.guardStep t)) = some s' ∧
      s'.registry = registerPoolGuard guard.guardBegin guard.guardEnd s.registry ∧
      s'.guards t = .registered guard := by
  obtain ⟨n, entries, hrun, hslots⟩ := run_register s t guard
  have hnext : s.next (.register t guard) =
      some (s.guardAt t s.entries (.registerLoad guard 0)) := by
    simp only [next, hidle, guardAt]
  exact ⟨n, _, run_cons_eq_some.mpr ⟨_, hnext, hrun⟩, hslots, Function.update_self ..⟩

/-- A call of `unregister_pool_guard` that runs alone is the sequential one. -/
theorem unregister_alone {guard : PoolRegistryEntry} (ht : s.guards t = .registered guard) :
    ∃ n s', run next s (.unregister t :: List.replicate n (.guardStep t)) = some s' ∧
      s'.registry = unregisterPoolGuard guard.guardBegin s.registry ∧ s'.guards t = .idle := by
  rcases eq_or_ne guard.guardBegin 0 with hzero | hne
  · have hnext : s.next (.unregister t) = some (s.guardAt t s.entries .idle) := by
      simp only [next, ht, if_pos hzero, guardAt]
    refine ⟨0, _, run_cons_eq_some.mpr ⟨_, hnext, rfl⟩, ?_, Function.update_self ..⟩
    rw [unregisterPoolGuard, if_pos hzero]
    rfl
  · obtain ⟨n, entries, hrun, hslots⟩ := run_unregister s t guard
    have hnext : s.next (.unregister t) =
        some (s.guardAt t s.entries (.unregisterLoad guard 0)) := by
      simp only [next, ht, if_neg hne, guardAt]
    refine ⟨n, _, run_cons_eq_some.mpr ⟨_, hnext, hrun⟩, ?_, Function.update_self ..⟩
    rw [unregisterPoolGuard, if_neg hne]
    exact hslots

end

/-! ## Every run -/

/-- **When guard registrations are neither lost nor mixed.** Any number of threads register guards
and may unregister them again, and others search; every load and store is one step, in any order.
If no thread that scans for a free slot reads one as free that another thread is about to store to,
then in every state reached the registered guards, whose unregistration has not begun, occupy slots
of their own with their own begin and end. A search that runs alone there returns a slot for each
address in such a guard, and `-1` for an address in no guard that is registered, being registered
or being unregistered. -/
theorem guards_registered_once {ops : List RegistryOp} {s : Registrations}
    (hcalls : Along next Calls start ops) (hsettled : Along next ReadsSettled start ops)
    (hrun : run next start ops = some s) :
    (∃ slot : ℕ → ℕ,
        (∀ t guard, s.guards t = .registered guard →
          slot t < kMaxRegisteredPools ∧ s.entries (slot t) = guard) ∧
        ∀ t u guard other, s.guards t = .registered guard → s.guards u = .registered other →
          slot t = slot u → t = u) ∧
      ∀ f address s', s.next (.find f address) = some s' →
        ∃ n s'' r, run next s' (List.replicate n (.findStep f)) = some s'' ∧
          s''.finders f = .returned r ∧
          (∀ t guard, s.guards t = .registered guard → guard.guardBegin ≤ address →
            address < guard.guardEnd → 0 ≤ r) ∧
          ((∀ t guard, (s.guards t).guard = some guard →
            ¬ (guard.guardBegin ≤ address ∧ address < guard.guardEnd)) → r = -1) := by
  obtain ⟨seat, h⟩ := ok_of_run hcalls hsettled hrun
  have hregistered : ∀ t guard, s.guards t = .registered guard →
      t ∈ s.live ∧ (s.guards t).guard = some guard ∧ s.entries (seat t) = guard := by
    intro t guard ht
    have hguard : (s.guards t).guard = some guard := by rw [ht]; rfl
    have hplace := h.place t
    rw [ht] at hplace
    exact ⟨live_of_guard hguard, hguard, hplace⟩
  refine ⟨⟨seat, fun t guard ht => ?_, fun t u guard other ht hu heq => ?_⟩,
    fun f address s' hfind => ?_⟩
  · obtain ⟨hlive, -, hentry⟩ := hregistered t guard ht
    exact ⟨h.seated.lt t hlive, hentry⟩
  · exact h.seated.sole t (hregistered t guard ht).1 u (hregistered u other hu).1 heq
  · have hs' : s' = s.findAt f (.loadBegin address 0) := by
      simp only [next] at hfind
      split at hfind <;> cases hfind
      all_goals rfl
    obtain ⟨n, r, hsearch, hresult⟩ := run_find s f address (Nat.zero_le _)
    refine ⟨n, _, r, hs' ▸ hsearch, Function.update_self .., ?_, ?_⟩
    · intro t guard ht hbegin hend
      obtain ⟨hlive, hguard, hentry⟩ := hregistered t guard ht
      rcases hresult with ⟨j, -, rfl, -⟩ | ⟨-, hnone⟩
      · exact Int.natCast_nonneg j
      · have hne := (h.nonempty t guard hguard).1
        have hcovers : Covers (s.entries (seat t)) address := by
          rw [hentry]
          exact ⟨hne, hbegin, hend⟩
        exact absurd hcovers (hnone (seat t) (Nat.zero_le _) (h.seated.lt t hlive))
    · intro hout
      rcases hresult with ⟨j, hj, -, hbegin, hin⟩ | ⟨hr, -⟩
      · obtain ⟨t, -, ht⟩ := h.guard_of_taken hj hbegin
        exact absurd hin (hout t _ ht)
      · exact hr

/-- Two threads register a guard each, one after the other. -/
def oneAfterTheOther : List RegistryOp :=
  [.register 0 ⟨0x10000, 0x11000⟩, .guardStep 0, .guardStep 0, .guardStep 0,
    .register 1 ⟨0x20000, 0x21000⟩, .guardStep 1, .guardStep 1, .guardStep 1, .guardStep 1]

/-- A call in a state with at most one other guard. -/
theorem calls_beside {s : Registrations} {t : ℕ} {guard : PoolRegistryEntry} (u : ℕ)
    (other : PoolRegistryEntry) (honly : ∀ v, v ≠ u → s.guards v = .idle)
    (hother : ∀ g, (s.guards u).guard = some g → g = other) (hbegin : guard.guardBegin ≠ 0)
    (hlt : guard.guardBegin < guard.guardEnd)
    (hapart : guard.guardEnd ≤ other.guardBegin ∨ other.guardEnd ≤ guard.guardBegin) :
    s.Calls (.register t guard) := by
  have hlive : s.live ⊆ {u} := fun v hv => by
    by_contra hne
    exact hv (honly v hne)
  refine ⟨hbegin, hlt, fun v g hg => ?_, ?_⟩
  · obtain rfl : v = u := hlive (live_of_guard hg)
    rw [hother g hg]
    exact hapart
  · have hcard := Set.encard_le_encard hlive
    rw [Set.encard_singleton] at hcard
    exact hcard.trans_lt (by decide)

/-- A step in a state in which the other threads are in no call. -/
theorem readsSettled_beside {s : Registrations} {t : ℕ}
    (hothers : ∀ u, u ≠ t → s.guards u = .idle ∨ ∃ guard, s.guards u = .registered guard) :
    s.ReadsSettled (.guardStep t) := by
  intro guard i ht _ u
  rcases eq_or_ne u t with rfl | hne
  · rw [ht]
    exact id
  · rcases hothers u hne with hu | ⟨guard, hu⟩
    all_goals
      rw [hu]
      exact id

theorem guards_registered_once_oneAfterTheOther :
    ∃ s, run next start oneAfterTheOther = some s ∧
      ∃ slot : ℕ → ℕ, slot 0 ≠ slot 1 ∧ s.entries (slot 0) = ⟨0x10000, 0x11000⟩ ∧
        s.entries (slot 1) = ⟨0x20000, 0x21000⟩ := by
  have hcalls : Along next Calls start oneAfterTheOther := by
    refine ⟨calls_beside 0 ⟨0x20000, 0x21000⟩ (fun _ _ => rfl) (fun g hg => by cases hg)
      (by decide) (by decide) (by decide), fun s₁ h₁ => ⟨trivial, fun s₂ h₂ => ⟨trivial,
      fun s₃ h₃ => ⟨trivial, fun s₄ h₄ => ⟨?_, fun s₅ _ => Along.of_forall fun op hop s => ?_⟩⟩⟩⟩⟩
    · cases h₁
      cases h₂
      cases h₃
      cases h₄
      refine calls_beside 0 ⟨0x10000, 0x11000⟩ (fun v hv => ?_)
        (fun g hg => Option.some.inj hg.symm) (by decide) (by decide) (by decide)
      simp [start, hv]
    · simp only [List.mem_cons, List.not_mem_nil, or_false] at hop
      rcases hop with rfl | rfl | rfl | rfl <;> trivial
  have hsettled : Along next ReadsSettled start oneAfterTheOther := by
    refine ⟨trivial, fun s₁ h₁ => ⟨readsSettled_beside fun u hu => ?_, fun s₂ h₂ =>
      ⟨fun _ _ hload => ?_, fun s₃ h₃ => ⟨fun _ _ hload => ?_, fun s₄ h₄ => ⟨trivial, fun s₅ h₅ =>
      ⟨readsSettled_beside fun u hu => ?_, fun s₆ h₆ => ⟨readsSettled_beside fun u hu => ?_,
      fun s₇ h₇ => ⟨fun _ _ hload => ?_, fun s₈ h₈ => ⟨fun _ _ hload => ?_,
      fun _ _ => trivial⟩⟩⟩⟩⟩⟩⟩⟩⟩
    all_goals cases h₁
    · exact Or.inl (by simp [start, hu])
    all_goals cases h₂
    · cases hload
    all_goals cases h₃
    · cases hload
    all_goals
      cases h₄
      cases h₅
    · rcases eq_or_ne u 0 with rfl | h0
      · exact Or.inr ⟨_, rfl⟩
      · exact Or.inl (by simp [start, hu, h0])
    all_goals cases h₆
    · rcases eq_or_ne u 0 with rfl | h0
      · exact Or.inr ⟨_, rfl⟩
      · exact Or.inl (by simp [start, hu, h0])
    all_goals cases h₇
    · cases hload
    all_goals cases h₈
    · cases hload
  obtain ⟨s, hs⟩ : ∃ s, run next start oneAfterTheOther = some s := ⟨_, rfl⟩
  obtain ⟨⟨slot, hslot, hsole⟩, -⟩ := guards_registered_once hcalls hsettled hs
  cases hs
  refine ⟨_, rfl, slot, fun heq => ?_, (hslot 0 _ rfl).2, (hslot 1 _ rfl).2⟩
  exact absurd (hsole 0 1 _ _ rfl rfl heq) (by decide)

/-- Two threads read the first slot as free, and store to it in turns. -/
def bothClaim : List RegistryOp :=
  [.register 0 ⟨0x10000, 0x11000⟩, .register 1 ⟨0x20000, 0x21000⟩, .guardStep 0, .guardStep 1,
    .guardStep 1, .guardStep 0, .guardStep 0, .guardStep 1]

/-- Both threads have registered, one guard is lost, and the slot has the begin of one and the end
of the other. -/
theorem slot_claimed_twice :
    ∃ s, Along next Calls start bothClaim ∧ run next start bothClaim = some s ∧
      s.guards 0 = .registered ⟨0x10000, 0x11000⟩ ∧
      s.guards 1 = .registered ⟨0x20000, 0x21000⟩ ∧
      s.entries 0 = ⟨0x20000, 0x11000⟩ ∧ ∀ i, i ≠ 0 → s.entries i = ⟨0, 0⟩ := by
  have hcalls : Along next Calls start bothClaim := by
    refine ⟨?_, fun s₁ hs₁ => ⟨?_, fun s₂ hs₂ => Along.of_forall fun op hop s => ?_⟩⟩
    · exact calls_beside 0 ⟨0x20000, 0x21000⟩ (fun _ _ => rfl)
        (fun g hg => by cases hg) (by decide) (by decide) (by decide)
    · cases hs₁
      exact calls_beside 0 ⟨0x10000, 0x11000⟩ (fun v hv => Function.update_of_ne hv ..)
        (fun g hg => Option.some.inj hg.symm) (by decide) (by decide) (by decide)
    · simp only [List.mem_cons, List.not_mem_nil, or_false] at hop
      rcases hop with rfl | rfl | rfl | rfl | rfl | rfl <;> trivial
  refine ⟨_, hcalls, rfl, rfl, rfl, rfl, fun i hi => ?_⟩
  simp [start, hi]

end Registrations

end Doost.Pools
