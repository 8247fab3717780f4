import Doost.Pools.Registrations

/-!
# Slots and the guards they hold

Threads that register and unregister guards can disturb each other: two of them can claim one slot,
and the one that clears a slot can take the claim of another with it. `no_slot_leaks`: whatever they
do, no slot stays taken for a guard that is gone, so that a registry that has lost guards still has
room for as many as before.

`SlotsOwned` is what carries the proof. A slot that is taken has an owner, the thread whose guard
begins where the slot says, and this thread has not come past the slot in `unregister_pool_guard`.
-/

namespace Doost.Pools

open Seats Transition

/-! ## Owners -/

namespace GuardPc

/-- The thread is going to clear slot `i` if it finds `begin` there. -/
def Clears (i : ℕ) (begin : UIntPtr) : GuardPc → Prop
  | registered guard => guard.guardBegin = begin
  | unregisterLoad guard index => guard.guardBegin = begin ∧ index ≤ i
  | unregisterStoreBegin guard index => guard.guardBegin = begin ∧ index = i
  | _ => False

/-- A scan ends with the registry, and a slot that is claimed is one of it. -/
def InBounds : GuardPc → Prop
  | registerLoad _ index => index ≤ kMaxRegisteredPools
  | registerStoreEnd _ index => index < kMaxRegisteredPools
  | registerStoreBegin _ index => index < kMaxRegisteredPools
  | unregisterLoad _ index => index ≤ kMaxRegisteredPools
  | _ => True

variable {pc : GuardPc} {i : ℕ} {begin : UIntPtr}

theorem Clears.guard (h : pc.Clears i begin) :
    ∃ guard, pc.guard = some guard ∧ guard.guardBegin = begin := by
  cases pc with
  | registered guard => exact ⟨guard, rfl, h⟩
  | unregisterLoad guard index | unregisterStoreBegin guard index => exact ⟨guard, rfl, h.1⟩
  | _ => exact absurd h id

end GuardPc

/-- Every taken slot has an owner, and no guard is in two slots. -/
structure SlotsOwned (entries : ℕ → PoolRegistryEntry) (guards : ℕ → GuardPc) : Prop where
  bounds : ∀ t, (guards t).InBounds
  slots : ∀ i, (entries i).guardBegin ≠ 0 →
    i < kMaxRegisteredPools ∧ ∃ t, (guards t).Clears i (entries i).guardBegin
  sole : ∀ i j, (entries i).guardBegin ≠ 0 → (entries i).guardBegin = (entries j).guardBegin →
    i = j
  distinct : ∀ t u guard other, (guards t).guard = some guard → (guards u).guard = some other →
    guard.guardBegin = other.guardBegin → t = u

namespace SlotsOwned

variable {entries entries' : ℕ → PoolRegistryEntry} {guards : ℕ → GuardPc} {t i : ℕ}
  {guard : PoolRegistryEntry} {pc : GuardPc}

theorem start {guards : ℕ → GuardPc} (h : ∀ t, guards t = .idle) :
    SlotsOwned (fun _ => ⟨0, 0⟩) guards where
  bounds t := by
    rw [h t]
    trivial
  slots i hi := absurd rfl hi
  sole i j hi _ := absurd rfl hi
  distinct t u guard other ht _ := by
    rw [h t] at ht
    cases ht

/-- The owner of a slot is the thread whose guard it holds. -/
theorem owner_eq (h : SlotsOwned entries guards) (ht : (guards t).guard = some guard)
    (hi : (entries i).guardBegin ≠ 0) (hbegin : (entries i).guardBegin = guard.guardBegin) :
    (guards t).Clears i (entries i).guardBegin := by
  obtain ⟨-, u, hu⟩ := h.slots i hi
  obtain ⟨other, hother, hsame⟩ := hu.guard
  obtain rfl := h.distinct u t other guard hother ht (hsame.trans hbegin)
  exact hu

/-- A thread that goes on to `pc` with its guard, or without it. -/
theorem distinct_update (h : SlotsOwned entries guards)
    (hpc : ∀ guard, pc.guard = some guard → (guards t).guard = some guard) (u v : ℕ)
    (guard other : PoolRegistryEntry)
    (hu : (Function.update guards t pc u).guard = some guard)
    (hv : (Function.update guards t pc v).guard = some other)
    (hbegin : guard.guardBegin = other.guardBegin) : u = v := by
  have hold : ∀ u guard, (Function.update guards t pc u).guard = some guard →
      (guards u).guard = some guard := by
    intro u guard hu
    rcases eq_or_ne u t with rfl | hne
    · rw [Function.update_self] at hu
      exact hpc guard hu
    · rwa [Function.update_of_ne hne] at hu
  exact h.distinct u v guard other (hold u guard hu) (hold v other hv) hbegin

/-- The other threads stay where they are. -/
theorem bounds_update (h : SlotsOwned entries guards) (hpc : pc.InBounds) (u : ℕ) :
    (Function.update guards t pc u).InBounds := by
  rcases eq_or_ne u t with rfl | hne
  · rwa [Function.update_self]
  · rw [Function.update_of_ne hne]
    exact h.bounds u

/-- A slot keeps its owner if this is another thread, or `pc` is still going to clear it. -/
theorem clears_update {begin : UIntPtr} (hpc : (guards t).Clears i begin → pc.Clears i begin)
    (h : ∃ u, (guards u).Clears i begin) :
    ∃ u, (Function.update guards t pc u).Clears i begin := by
  obtain ⟨u, hu⟩ := h
  refine ⟨u, ?_⟩
  rcases eq_or_ne u t with rfl | hne
  · rw [Function.update_self]
    exact hpc hu
  · rwa [Function.update_of_ne hne]

/-- A step that stores to no `guard_begin`: what the thread was going to clear it still is. -/
theorem move (h : SlotsOwned entries guards)
    (hbegins : ∀ i, (entries' i).guardBegin = (entries i).guardBegin) (hpc : pc.InBounds)
    (hguard : ∀ guard, pc.guard = some guard → (guards t).guard = some guard)
    (hclears : ∀ i, (entries i).guardBegin ≠ 0 → (guards t).Clears i (entries i).guardBegin →
      pc.Clears i (entries i).guardBegin) :
    SlotsOwned entries' (Function.update guards t pc) where
  bounds := h.bounds_update hpc
  slots i hi := by
    rw [hbegins] at hi ⊢
    exact ⟨(h.slots i hi).1, clears_update (hclears i hi) (h.slots i hi).2⟩
  sole i j hi heq := by
    rw [hbegins] at hi heq
    rw [hbegins] at heq
    exact h.sole i j hi heq
  distinct := h.distinct_update hguard

/-- A new guard. -/
theorem arrive (h : SlotsOwned entries guards) (hidle : guards t = .idle)
    (hapart : ∀ u other, (guards u).guard = some other → other.guardBegin ≠ guard.guardBegin) :
    SlotsOwned entries (Function.update guards t (.registerLoad guard 0)) where
  bounds := h.bounds_update (Nat.zero_le _)
  slots i hi := by
    refine ⟨(h.slots i hi).1, clears_update (fun hclears => ?_) (h.slots i hi).2⟩
    rw [hidle] at hclears
    exact absurd hclears id
  sole := h.sole
  distinct u v g g' hu hv heq := by
    rcases eq_or_ne u t with hut | hut <;> rcases eq_or_ne v t with hvt | hvt
    · exact hut.trans hvt.symm
    · rw [hut, Function.update_self] at hu
      rw [Function.update_of_ne hvt] at hv
      obtain rfl := Option.some.inj hu
      exact absurd heq.symm (hapart v g' hv)
    · rw [hvt, Function.update_self] at hv
      rw [Function.update_of_ne hut] at hu
      obtain rfl := Option.some.inj hv
      exact absurd heq (hapart u g hu)
    · rw [Function.update_of_ne hut] at hu
      rw [Function.update_of_ne hvt] at hv
      exact h.distinct u v g g' hu hv heq

/-- `unregister_pool_guard` is called. -/
theorem unregister (h : SlotsOwned entries guards) (ht : guards t = .registered guard) :
    SlotsOwned entries (Function.update guards t (.unregisterLoad guard 0)) := by
  refine h.move (fun _ => rfl) (Nat.zero_le _) (fun g hg => ?_) fun i _ hclears => ?_
  · rw [ht]
    exact hg
  · rw [ht] at hclears
    exact ⟨hclears, Nat.zero_le i⟩

/-- `unregister_pool_guard` returns at once for a null pointer, which no slot holds. -/
theorem unregister_null (h : SlotsOwned entries guards) (ht : guards t = .registered guard)
    (hnull : guard.guardBegin = 0) : SlotsOwned entries (Function.update guards t .idle) := by
  refine h.move (fun _ => rfl) trivial (fun g hg => by cases hg) fun i hi hclears => ?_
  rw [ht] at hclears
  exact absurd (hclears.symm.trans hnull) hi

theorem guardBegin_storeEnd (entries : ℕ → PoolRegistryEntry) (index : ℕ) (end' : UIntPtr) (i : ℕ) :
    (Function.update entries index { entries index with guardEnd := end' } i).guardBegin =
      (entries i).guardBegin := by
  rcases eq_or_ne i index with rfl | hne
  · rw [Function.update_self]
  · rw [Function.update_of_ne hne]

/-- A thread stores its guard to the slot that it has claimed, whoever has come before it. -/
theorem storeBegin (h : SlotsOwned entries guards)
    (hpc : guards t = .registerStoreBegin guard i) :
    SlotsOwned (Function.update entries i { entries i with guardBegin := guard.guardBegin })
      (Function.update guards t (.registered guard)) := by
  have hbounds : i < kMaxRegisteredPools := by
    have hbounds := h.bounds t
    rwa [hpc] at hbounds
  have hguard : (guards t).guard = some guard := by
    rw [hpc]
    rfl
  -- no slot holds the guard yet
  have hnone : ∀ j, (entries j).guardBegin ≠ 0 → (entries j).guardBegin ≠ guard.guardBegin := by
    intro j hj hbegin
    have hclears := h.owner_eq hguard hj hbegin
    rw [hpc] at hclears
    exact hclears
  have hself : ∀ j, j ≠ i → Function.update entries i
      { entries i with guardBegin := guard.guardBegin } j = entries j :=
    fun j hne => Function.update_of_ne hne ..
  refine ⟨h.bounds_update trivial, fun j hj => ?_, fun j k hj heq => ?_,
    h.distinct_update fun g hg => hguard.trans hg⟩
  · rcases eq_or_ne j i with rfl | hne
    · refine ⟨hbounds, t, ?_⟩
      rw [Function.update_self, Function.update_self]
      exact rfl
    · rw [hself j hne] at hj ⊢
      refine ⟨(h.slots j hj).1, clears_update (fun hclears => ?_) (h.slots j hj).2⟩
      rw [hpc] at hclears
      exact absurd hclears id
  · rcases eq_or_ne j i with hj' | hne <;> rcases eq_or_ne k i with hk' | hne'
    · exact hj'.trans hk'.symm
    · rw [hj', Function.update_self] at hj heq
      rw [hself k hne'] at heq
      exact absurd heq.symm (hnone k (heq ▸ hj))
    · rw [hself j hne] at hj heq
      rw [hk', Function.update_self] at heq
      exact absurd heq (hnone j hj)
    · rw [hself j hne] at hj heq
      rw [hself k hne'] at heq
      exact h.sole j k hj heq

/-- A thread clears the slot where it has found its guard, whatever the slot holds by now. -/
theorem clearBegin (h : SlotsOwned entries guards)
    (hpc : guards t = .unregisterStoreBegin guard i) :
    SlotsOwned (Function.update entries i { entries i with guardBegin := 0 })
      (Function.update guards t (.unregisterStoreEnd guard i)) := by
  have hguard : (guards t).guard = some guard := by
    rw [hpc]
    rfl
  have hself : ∀ j,
      (Function.update entries i { entries i with guardBegin := 0 } j).guardBegin ≠ 0 →
      j ≠ i ∧ Function.update entries i { entries i with guardBegin := 0 } j = entries j := by
    intro j hj
    rcases eq_or_ne j i with rfl | hne
    · rw [Function.update_self] at hj
      exact absurd rfl hj
    · exact ⟨hne, Function.update_of_ne hne ..⟩
  refine ⟨h.bounds_update trivial, fun j hj => ?_, fun j k hj heq => ?_,
    h.distinct_update fun g hg => hguard.trans hg⟩
  · obtain ⟨hne, hentry⟩ := hself j hj
    rw [hentry] at hj ⊢
    refine ⟨(h.slots j hj).1, clears_update (fun hclears => ?_) (h.slots j hj).2⟩
    rw [hpc] at hclears
    exact absurd hclears.2.symm hne
  · obtain ⟨-, hentry⟩ := hself j hj
    obtain ⟨-, hentry'⟩ := hself k (heq ▸ hj)
    rw [hentry] at hj heq
    rw [hentry'] at heq
    exact h.sole j k hj heq

/-- **A load or a store keeps the owners**, also when it comes between those of another thread. -/
theorem step (h : SlotsOwned entries guards)
    (hstep : guardStep entries (guards t) = some (entries', pc)) :
    SlotsOwned entries' (Function.update guards t pc) := by
  have hbounds := h.bounds t
  cases hpc : guards t with
  | idle | registered guard =>
    rw [hpc] at hstep
    cases hstep
  | registerLoad guard index =>
    rw [hpc] at hstep hbounds
    have hsame : ∀ pc' : GuardPc, pc'.InBounds → pc'.guard = some guard →
        SlotsOwned entries (Function.update guards t pc') := by
      intro pc' hin hguard
      refine h.move (fun _ => rfl) hin (fun g hg => ?_) fun i _ hclears => ?_
      · rw [hpc]
        exact hguard.symm.trans hg
      · rw [hpc] at hclears
        exact absurd hclears id
    simp only [guardStep] at hstep
    split at hstep
    · cases hstep
      exact hsame _ trivial rfl
    · next hend =>
      have hlt : index < kMaxRegisteredPools := lt_of_le_of_ne hbounds hend
      split at hstep
      · cases hstep
        exact hsame _ hlt rfl
      · cases hstep
        exact hsame _ (Nat.succ_le_of_lt hlt) rfl
  | registerStoreEnd guard index =>
    rw [hpc] at hstep hbounds
    cases hstep
    refine h.move (guardBegin_storeEnd entries index _) hbounds (fun g hg => ?_)
      fun i _ hclears => ?_
    · rw [hpc]
      exact hg
    · rw [hpc] at hclears
      exact absurd hclears id
  | registerStoreBegin guard index =>
    rw [hpc] at hstep
    cases hstep
    exact h.storeBegin hpc
  | unregisterLoad guard index =>
    rw [hpc] at hstep hbounds
    have hguard : (guards t).guard = some guard := by rw [hpc]; rfl
    simp only [guardStep] at hstep
    split at hstep
    · next hend =>
      cases hstep
      refine h.move (fun _ => rfl) trivial (fun g hg => by cases hg) fun i hi hclears => ?_
      rw [hpc] at hclears
      -- the scan has come past every slot
      have hlt := (h.slots i hi).1
      exact absurd (hend ▸ hclears.2) (Nat.not_le.mpr hlt)
    · next hmore =>
      split at hstep
      · next hfound =>
        cases hstep
        refine h.move (fun _ => rfl) trivial (fun g hg => hg ▸ hguard) fun i hi hclears => ?_
        rw [hpc] at hclears
        exact ⟨hclears.1, h.sole index i (hfound ▸ hclears.1 ▸ hi) (hfound.trans hclears.1)⟩
      · next hother =>
        cases hstep
        refine h.move (fun _ => rfl) (Nat.succ_le_of_lt (lt_of_le_of_ne hbounds hmore))
          (fun g hg => hg ▸ hguard) fun i hi hclears => ?_
        rw [hpc] at hclears
        refine ⟨hclears.1, Nat.succ_le_of_lt (lt_of_le_of_ne hclears.2 ?_)⟩
        rintro rfl
        exact hother hclears.1.symm
  | unregisterStoreBegin guard index =>
    rw [hpc] at hstep
    cases hstep
    exact h.clearBegin hpc
  | unregisterStoreEnd guard index =>
    rw [hpc] at hstep
    cases hstep
    refine h.move (guardBegin_storeEnd entries index 0) trivial (fun g hg => by cases hg)
      fun i _ hclears => ?_
    rw [hpc] at hclears
    exact absurd hclears id

/-- With fewer guards than slots there is a free slot. -/
theorem exists_free (h : SlotsOwned entries guards)
    (hfew : {t | guards t ≠ .idle}.encard < kMaxRegisteredPools) :
    ∃ i < kMaxRegisteredPools, (entries i).guardBegin = 0 := by
  classical
  let seat : ℕ → ℕ := fun t =>
    if ht : ∃ i, (entries i).guardBegin ≠ 0 ∧ (guards t).Clears i (entries i).guardBegin then
      ht.choose
    else kMaxRegisteredPools
  obtain ⟨i, hi, hnobody⟩ := Seated.exists_free seat hfew
  refine ⟨i, hi, ?_⟩
  by_contra htaken
  obtain ⟨-, t, ht⟩ := h.slots i htaken
  obtain ⟨guard, hguard, hbegin⟩ := ht.guard
  have hlive : guards t ≠ .idle := by
    intro hidle
    rw [hidle] at hguard
    cases hguard
  refine hnobody t hlive ?_
  have hex : ∃ i, (entries i).guardBegin ≠ 0 ∧ (guards t).Clears i (entries i).guardBegin :=
    ⟨i, htaken, ht⟩
  obtain ⟨hne, hclears⟩ := hex.choose_spec
  obtain ⟨other, hother, hbegin'⟩ := hclears.guard
  have hsame : other = guard := Option.some.inj (hother.symm.trans hguard)
  have hseat : seat t = hex.choose := dif_pos hex
  rw [hseat]
  exact h.sole _ i hne (hbegin'.symm.trans ((congrArg _ hsame).trans hbegin))

end SlotsOwned

/-! ## The steps of a call -/

namespace GuardPc

/-- In `register_pool_guard`, or back from it. -/
def InRegister (guard : PoolRegistryEntry) : GuardPc → Prop
  | registerLoad guard' _ => guard' = guard
  | registerStoreEnd guard' _ => guard' = guard
  | registerStoreBegin guard' _ => guard' = guard
  | registered guard' => guard' = guard
  | _ => False

/-- In `unregister_pool_guard`, or back from it. -/
def InUnregister (guard : PoolRegistryEntry) : GuardPc → Prop
  | unregisterLoad guard' _ => guard' = guard
  | unregisterStoreBegin guard' _ => guard' = guard
  | unregisterStoreEnd guard' _ => guard' = guard
  | idle => True
  | _ => False

/-- The loads and stores that the call has left. -/
def stepsLeft : GuardPc → ℕ
  | registerLoad _ index => kMaxRegisteredPools - index + 3
  | registerStoreEnd _ _ => 2
  | registerStoreBegin _ _ => 1
  | unregisterLoad _ index => kMaxRegisteredPools - index + 3
  | unregisterStoreBegin _ _ => 2
  | unregisterStoreEnd _ _ => 1
  | _ => 0

variable {pc pc' : GuardPc} {guard : PoolRegistryEntry} {entries entries' : ℕ → PoolRegistryEntry}

theorem InRegister.guard_eq (h : pc.InRegister guard) {other : PoolRegistryEntry}
    (hother : pc.guard = some other) : other = guard := by
  cases pc with
  | registerLoad guard' index | registerStoreEnd guard' index | registerStoreBegin guard' index
  | registered guard' => exact (Option.some.inj hother).symm.trans h
  | _ => exact absurd h id

theorem InUnregister.guard_eq (h : pc.InUnregister guard) {other : PoolRegistryEntry}
    (hother : pc.guard = some other) : other = guard := by
  cases pc with
  | unregisterLoad guard' index | unregisterStoreBegin guard' index
  | unregisterStoreEnd guard' index => exact (Option.some.inj hother).symm.trans h
  | idle => cases hother
  | _ => exact absurd h id

theorem InRegister.step (h : pc.InRegister guard) (entries : ℕ → PoolRegistryEntry) :
    pc = .registered guard ∨ ∃ entries' pc', guardStep entries pc = some (entries', pc') ∧
      pc'.InRegister guard := by
  cases pc with
  | registerLoad guard' index =>
    right
    simp only [guardStep]
    split
    · exact ⟨_, _, rfl, h⟩
    · split <;> exact ⟨_, _, rfl, h⟩
  | registerStoreEnd guard' index | registerStoreBegin guard' index => exact Or.inr ⟨_, _, rfl, h⟩
  | registered guard' => exact Or.inl (congrArg registered h)
  | _ => exact absurd h id

theorem InUnregister.step (h : pc.InUnregister guard) (entries : ℕ → PoolRegistryEntry) :
    pc = .idle ∨ ∃ entries' pc', guardStep entries pc = some (entries', pc') ∧
      pc'.InUnregister guard := by
  cases pc with
  | unregisterLoad guard' index =>
    right
    simp only [guardStep]
    split
    · exact ⟨_, _, rfl, trivial⟩
    · split <;> exact ⟨_, _, rfl, h⟩
  | unregisterStoreBegin guard' index => exact Or.inr ⟨_, _, rfl, h⟩
  | unregisterStoreEnd guard' index => exact Or.inr ⟨_, _, rfl, trivial⟩
  | idle => exact Or.inl rfl
  | _ => exact absurd h id

theorem stepsLeft_step (h : pc.InBounds) (hstep : guardStep entries pc = some (entries', pc')) :
    pc'.stepsLeft < pc.stepsLeft := by
  cases pc with
  | registerLoad guard' index | unregisterLoad guard' index =>
    change index ≤ kMaxRegisteredPools at h
    simp only [guardStep] at hstep
    (repeat' split at hstep) <;> cases hstep <;> simp only [stepsLeft] <;> omega
  | idle | registered guard' => cases hstep
  | _ =>
    cases hstep
    simp only [stepsLeft]
    omega

end GuardPc

/-! ## Every run -/

namespace Registrations

/-- What `mmap` promises for the guards: a new one begins at a nonzero address, and none of the
others there. -/
def BeginsApart (s : Registrations) : RegistryOp → Prop
  | .register _ guard => guard.guardBegin ≠ 0 ∧
      ∀ u other, (s.guards u).guard = some other → other.guardBegin ≠ guard.guardBegin
  | _ => True

theorem slotsOwned_next {s s' : Registrations} {op : RegistryOp}
    (h : SlotsOwned s.entries s.guards) (hop : s.BeginsApart op) (hnext : s.next op = some s') :
    SlotsOwned s'.entries s'.guards := by
  cases op with
  | register t guard =>
    simp only [next] at hnext
    split at hnext <;> cases hnext
    exact h.arrive ‹_› hop.2
  | unregister t =>
    simp only [next] at hnext
    split at hnext
    · next guard ht =>
      split at hnext
      · next hnull =>
        cases hnext
        exact h.unregister_null ht hnull
      · cases hnext
        exact h.unregister ht
    · cases hnext
  | guardStep t =>
    obtain ⟨⟨entries, pc⟩, hstep, rfl⟩ := Option.map_eq_some_iff.mp hnext
    exact h.step hstep
  | find f address =>
    simp only [next] at hnext
    split at hnext <;> cases hnext
    all_goals exact h
  | findStep f =>
    obtain ⟨pc, -, rfl⟩ := Option.map_eq_some_iff.mp hnext
    exact h

/-- **No slot leaks.** Any number of threads register and unregister guards, and every load and
store is one step, in any order; two of them may claim one slot, and one may clear what another has
just stored. In every state reached a slot that is taken holds the begin of a guard that has not
been unregistered, and no two slots hold the same; so every slot is free again when all guards are
gone, and one is free as long as there are fewer guards than slots. -/
theorem no_slot_leaks {ops : List RegistryOp} {s : Registrations}
    (hcalls : Along next BeginsApart start ops) (hrun : run next start ops = some s) :
    (∀ i, (s.entries i).guardBegin ≠ 0 → i < kMaxRegisteredPools ∧
      ∃ t guard, (s.guards t).guard = some guard ∧ guard.guardBegin = (s.entries i).guardBegin) ∧
    (∀ i j, (s.entries i).guardBegin ≠ 0 → (s.entries i).guardBegin = (s.entries j).guardBegin →
      i = j) ∧
    ((∀ t, s.guards t = .idle) → ∀ i, (s.entries i).guardBegin = 0) ∧
    (s.live.encard < kMaxRegisteredPools →
      ∃ i < kMaxRegisteredPools, (s.entries i).guardBegin = 0) := by
  have h : SlotsOwned s.entries s.guards :=
    hcalls.invariant _ (I := fun s => SlotsOwned s.entries s.guards)
      (fun _ _ _ h hop hnext => slotsOwned_next h hop hnext) (.start fun _ => rfl) hrun
  refine ⟨fun i hi => ?_, h.sole, fun hidle i => ?_, h.exists_free⟩
  · obtain ⟨hlt, t, ht⟩ := h.slots i hi
    obtain ⟨guard, hguard, hbegin⟩ := ht.guard
    exact ⟨hlt, t, guard, hguard, hbegin⟩
  · by_contra hi
    obtain ⟨-, t, ht⟩ := h.slots i hi
    rw [hidle t] at ht
    exact ht

/-- Both threads have claimed the first slot, and both unregister. -/
def bothClaimAndUnregister : List RegistryOp :=
  [.register 0 ⟨0x10000, 0x11000⟩, .register 1 ⟨0x20000, 0x21000⟩, .guardStep 0, .guardStep 1,
    .guardStep 1, .guardStep 0, .guardStep 0, .guardStep 1, .unregister 1, .guardStep 1,
    .guardStep 1, .guardStep 1]

/-- The thread whose guard was lost is left, and no slot is taken. -/
theorem no_slot_leaks_bothClaim :
    ∃ s, run next start bothClaimAndUnregister = some s ∧
      s.guards 0 = .registered ⟨0x10000, 0x11000⟩ ∧ s.guards 1 = .idle ∧
      ∀ i j, (s.entries i).guardBegin ≠ 0 →
        (s.entries i).guardBegin = (s.entries j).guardBegin → i = j := by
  have hcalls : Along next BeginsApart start bothClaimAndUnregister := by
    refine ⟨⟨by decide, fun u other hu => by cases hu⟩, fun s₁ hs₁ => ⟨⟨by decide, ?_⟩,
      fun s₂ hs₂ => Along.of_forall fun op hop s => ?_⟩⟩
    · cases hs₁
      intro u other hu
      rcases eq_or_ne u 0 with rfl | hne
      · obtain rfl := Option.some.inj hu
        decide
      · simp [start, hne, GuardPc.guard] at hu
    · simp only [List.mem_cons, List.not_mem_nil, or_false] at hop
      rcases hop with rfl | rfl | rfl | rfl | rfl | rfl | rfl | rfl | rfl | rfl <;> trivial
  obtain ⟨s, hs⟩ : ∃ s, run next start bothClaimAndUnregister = some s := ⟨_, rfl⟩
  obtain ⟨-, hsole, -⟩ := no_slot_leaks hcalls hs
  cases hs
  exact ⟨_, rfl, rfl, rfl, hsole⟩

end Registrations

end Doost.Pools
