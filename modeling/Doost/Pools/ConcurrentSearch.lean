import Doost.Foundations.Potential
import Doost.Pools.Registrations

/-!
# A search while guards come and go

The handler of an overflow searches the registry while other threads register guards and unregister
them: `find_pool_index` takes no lock, and between its two loads of a slot anything can happen. A
registration stores `guard_begin` last, so that a slot that reads as taken has its end
(`Ok.guard_of_taken`), and nobody but the owner writes to a taken slot (`Ok.entry_kept`). A search
therefore misses no guard that stays registered, and finds nothing but guards as long as none is
being unregistered (`search_beside_registrations`); it returns after a bounded number of its own
steps, whatever the others do. When a slot changes hands between the two loads, a search can find a
guard that never was (`search_mixes_guards`).
-/

namespace Doost.Pools

open Seats Transition

namespace GuardPc

/-- In `unregister_pool_guard`. -/
def Unregisters : GuardPc → Prop
  | unregisterLoad _ _ | unregisterStoreBegin _ _ | unregisterStoreEnd _ _ => True
  | _ => False

end GuardPc

namespace FindPc

/-- The steps that are left to a search at most. -/
def left : FindPc → ℕ
  | idle | returned _ => 0
  | loadBegin _ index => 2 * (kMaxRegisteredPools - index) + 1
  | loadEnd _ index _ => 2 * (kMaxRegisteredPools - index)

/-- The index has not come past the end of the registry. -/
def Bounded : FindPc → Prop
  | idle | returned _ => True
  | loadBegin _ index => index ≤ kMaxRegisteredPools
  | loadEnd _ index _ => index < kMaxRegisteredPools

/-- A search for `address` is under way or has returned. -/
def Searches (address : UIntPtr) : FindPc → Prop
  | idle => False
  | loadBegin sought _ | loadEnd sought _ _ => sought = address
  | returned _ => True

/-- A search that has not come past slot `k`, where `guard` is, or has found some slot. -/
def Approaches (guard : PoolRegistryEntry) (k : ℕ) : FindPc → Prop
  | idle => False
  | loadBegin _ index => index ≤ k
  | loadEnd _ index begin => index ≤ k ∧ (index = k → begin = guard.guardBegin)
  | returned result => 0 ≤ result

/-- What a search has read is still in the registry. -/
def Reads (entries : ℕ → PoolRegistryEntry) (address : UIntPtr) : FindPc → Prop
  | loadEnd _ index begin => begin ≠ 0 ∧ (entries index).guardBegin = begin
  | returned result => result = -1 ∨
      ∃ i < kMaxRegisteredPools, result = i ∧ Registrations.Covers (entries i) address
  | _ => True

end FindPc

namespace Registrations

section

variable {s s' : Registrations} {seat : ℕ → ℕ} {t f i k : ℕ} {op : RegistryOp}
  {guard : PoolRegistryEntry} {address : UIntPtr}

/-! ## What a step can do -/

theorem next_cases (hnext : s.next op = some s') :
    (∃ u pc, s' = { s with guards := Function.update s.guards u pc } ∧
      ((∃ guard, op = .register u guard ∧ s.guards u = .idle ∧ pc = .registerLoad guard 0) ∨
        ∃ guard, op = .unregister u ∧ s.guards u = .registered guard ∧
          (pc = .idle ∨ pc = .unregisterLoad guard 0))) ∨
    (∃ u entries pc, op = .guardStep u ∧
      Pools.guardStep s.entries (s.guards u) = some (entries, pc) ∧
      s' = { s with entries := entries, guards := Function.update s.guards u pc }) ∨
    ∃ f pc, s' = { s with finders := Function.update s.finders f pc } ∧
      ((∃ address, op = .find f address ∧ pc = .loadBegin address 0) ∨
        op = .findStep f ∧ findStep s.entries (s.finders f) = some pc) := by
  cases op with
  | register u guard =>
    simp only [next] at hnext
    split at hnext <;> cases hnext
    exact Or.inl ⟨u, _, rfl, Or.inl ⟨guard, rfl, ‹_›, rfl⟩⟩
  | unregister u =>
    simp only [next] at hnext
    split at hnext
    · next guard hpc =>
      split at hnext <;> cases hnext
      · exact Or.inl ⟨u, _, rfl, Or.inr ⟨guard, rfl, hpc, Or.inl rfl⟩⟩
      · exact Or.inl ⟨u, _, rfl, Or.inr ⟨guard, rfl, hpc, Or.inr rfl⟩⟩
    · cases hnext
  | guardStep u =>
    obtain ⟨⟨entries, pc⟩, hstep, rfl⟩ := Option.map_eq_some_iff.mp hnext
    exact Or.inr (Or.inl ⟨u, entries, pc, rfl, hstep, rfl⟩)
  | find f address =>
    simp only [next] at hnext
    split at hnext <;> cases hnext
    all_goals exact Or.inr (Or.inr ⟨f, _, rfl, Or.inl ⟨address, rfl, rfl⟩⟩)
  | findStep f =>
    obtain ⟨pc, hstep, rfl⟩ := Option.map_eq_some_iff.mp hnext
    exact Or.inr (Or.inr ⟨f, pc, rfl, Or.inr ⟨rfl, hstep⟩⟩)

/-- A step of a caller of `find_pool_index`, or one that leaves it alone. -/
theorem next_finder (hnext : s.next op = some s') (hop : ∀ address, op ≠ .find f address) :
    (op ≠ .findStep f ∧ s'.finders f = s.finders f) ∨
      op = .findStep f ∧ findStep s.entries (s.finders f) = some (s'.finders f) ∧
        s'.entries = s.entries := by
  obtain ⟨u, pc, rfl, ⟨guard, rfl, -⟩ | ⟨guard, rfl, -⟩⟩ | ⟨u, entries, pc, rfl, -, rfl⟩ |
    ⟨g, pc, rfl, ⟨address, rfl, -⟩ | ⟨rfl, hstep⟩⟩ := next_cases hnext
  · exact Or.inl ⟨by simp, rfl⟩
  · exact Or.inl ⟨by simp, rfl⟩
  · exact Or.inl ⟨by simp, rfl⟩
  · have hne : f ≠ g := by
      rintro rfl
      exact hop address rfl
    exact Or.inl ⟨by simp, Function.update_of_ne hne ..⟩
  · rcases eq_or_ne f g with rfl | hne
    · refine Or.inr ⟨rfl, ?_, rfl⟩
      dsimp only
      rw [hstep, Function.update_self]
    · exact Or.inl ⟨fun heq => hne (RegistryOp.findStep.inj heq).symm, Function.update_of_ne hne ..⟩

/-! ## What the owners of guards leave alone -/

/-- A taken slot is written to by the thread that clears it. -/
theorem Ok.entry_kept (h : s.Ok seat) (hnext : s.next op = some s')
    (hbegin : (s.entries i).guardBegin ≠ 0)
    (hquiet : ∀ u guard, s.guards u ≠ .unregisterStoreBegin guard i) :
    s'.entries i = s.entries i := by
  obtain ⟨u, pc, rfl, -⟩ | ⟨u, entries, pc, -, hstep, rfl⟩ | ⟨f, pc, rfl, -⟩ := next_cases hnext
  · rfl
  · have hplace := h.place u
    have hother : ∀ j, (s.entries j).guardBegin = 0 → i ≠ j := by
      rintro j hfree rfl
      exact hbegin hfree
    cases hpc : s.guards u with
    | idle | registered guard =>
      rw [hpc] at hstep
      cases hstep
    | registerLoad guard j | unregisterLoad guard j =>
      rw [hpc] at hstep
      simp only [Pools.guardStep] at hstep
      split at hstep
      · cases hstep
        rfl
      · split at hstep <;> cases hstep
        all_goals rfl
    | registerStoreEnd guard j | unregisterStoreEnd guard j =>
      rw [hpc] at hstep hplace
      obtain ⟨rfl, hfree⟩ := hplace
      cases hstep
      exact Function.update_of_ne (hother _ hfree) ..
    | registerStoreBegin guard j =>
      rw [hpc] at hstep hplace
      obtain ⟨rfl, hfree, -⟩ := hplace
      cases hstep
      exact Function.update_of_ne (hother _ hfree) ..
    | unregisterStoreBegin guard j =>
      rw [hpc] at hstep
      cases hstep
      refine Function.update_of_ne ?_ ..
      rintro rfl
      exact hquiet u guard hpc
  · rfl

/-- A registered guard stays registered until its owner unregisters it. -/
theorem registered_kept (hnext : s.next op = some s') (ht : s.guards t = .registered guard)
    (hop : op ≠ .unregister t) : s'.guards t = .registered guard := by
  obtain ⟨u, pc, rfl, hcall⟩ | ⟨u, entries, pc, -, hstep, rfl⟩ | ⟨f, pc, rfl, -⟩ := next_cases hnext
  · refine (Function.update_of_ne ?_ ..).trans ht
    rintro rfl
    obtain ⟨other, -, hidle, -⟩ | ⟨other, hunregister, -⟩ := hcall
    · rw [ht] at hidle
      cases hidle
    · exact hop hunregister
  · refine (Function.update_of_ne ?_ ..).trans ht
    rintro rfl
    rw [ht] at hstep
    cases hstep
  · exact ht

/-- Nobody clears the slot of a registered guard. -/
theorem Ok.not_cleared (h : s.Ok seat) (ht : s.guards t = .registered guard)
    (hentry : s.entries i = guard) (u : ℕ) (other : PoolRegistryEntry) :
    s.guards u ≠ .unregisterStoreBegin other i := by
  intro hu
  have hguard : (s.guards t).guard = some guard := by rw [ht]; rfl
  have hplace := h.place u
  rw [hu] at hplace
  obtain ⟨hi, hother⟩ := hplace
  have hlive : u ∈ s.live := live_of_guard (by rw [hu]; rfl)
  have hseat := h.seat_of_begin hguard (hi ▸ h.seated.lt u hlive)
    (congrArg PoolRegistryEntry.guardBegin hentry)
  obtain rfl := h.seated.sole t (live_of_guard hguard) u hlive (hseat.trans hi)
  rw [ht] at hu
  cases hu

/-- No unregistration begins if none is called. -/
theorem unregisters_kept (hnext : s.next op = some s') (hop : ∀ t, op ≠ .unregister t)
    (hquiet : ∀ u, ¬ (s.guards u).Unregisters) (u : ℕ) : ¬ (s'.guards u).Unregisters := by
  obtain ⟨t, pc, rfl, hcall⟩ | ⟨t, entries, pc, -, hstep, rfl⟩ | ⟨f, pc, rfl, -⟩ := next_cases hnext
  · rcases eq_or_ne u t with rfl | hne
    · obtain ⟨guard, -, -, rfl⟩ | ⟨guard, hunregister, -⟩ := hcall
      · dsimp only
        rw [Function.update_self]
        exact id
      · exact absurd hunregister (hop u)
    · dsimp only
      rw [Function.update_of_ne hne]
      exact hquiet u
  · rcases eq_or_ne u t with rfl | hne
    · dsimp only
      rw [Function.update_self]
      have hu := hquiet u
      cases hpc : s.guards u with
      | idle | registered guard =>
        rw [hpc] at hstep
        cases hstep
      | registerLoad guard j =>
        rw [hpc] at hstep
        simp only [Pools.guardStep] at hstep
        split at hstep
        · cases hstep
          exact id
        · split at hstep <;> cases hstep
          all_goals exact id
      | registerStoreEnd guard j | registerStoreBegin guard j =>
        rw [hpc] at hstep
        cases hstep
        exact id
      | unregisterLoad guard j | unregisterStoreBegin guard j | unregisterStoreEnd guard j =>
        rw [hpc] at hu
        exact absurd trivial hu
    · dsimp only
      rw [Function.update_of_ne hne]
      exact hquiet u
  · exact hquiet u

/-! ## The search -/

variable {entries entries' : ℕ → PoolRegistryEntry} {pc pc' : FindPc}

theorem findStep_left (hpc : pc.Bounded) (hstep : findStep entries pc = some pc') :
    pc'.Bounded ∧ pc'.left + 1 ≤ pc.left := by
  cases pc with
  | idle | returned result => cases hstep
  | loadBegin sought index =>
    have hle : index ≤ kMaxRegisteredPools := hpc
    simp only [findStep] at hstep
    split at hstep
    · cases hstep
      exact ⟨trivial, by simp only [FindPc.left]; omega⟩
    · split at hstep <;> cases hstep
      · exact ⟨show index + 1 ≤ _ by omega, by simp only [FindPc.left]; omega⟩
      · exact ⟨show index < _ by omega, by simp only [FindPc.left]; omega⟩
  | loadEnd sought index begin =>
    have hlt : index < kMaxRegisteredPools := hpc
    simp only [findStep] at hstep
    split at hstep <;> cases hstep
    · exact ⟨trivial, by simp only [FindPc.left]; omega⟩
    · exact ⟨hlt, by simp only [FindPc.left]; omega⟩

theorem findStep_searches (hpc : pc.Searches address) (hstep : findStep entries pc = some pc') :
    pc'.Searches address := by
  cases pc with
  | idle | returned result => cases hstep
  | loadBegin sought index =>
    simp only [findStep] at hstep
    split at hstep
    · cases hstep
      trivial
    · split at hstep <;> cases hstep
      all_goals exact hpc
  | loadEnd sought index begin =>
    simp only [findStep] at hstep
    split at hstep <;> cases hstep
    · trivial
    · exact hpc

/-- A search does not come past a slot that covers its address. -/
theorem findStep_approaches (hcovers : Covers guard address) (hk : k < kMaxRegisteredPools)
    (hentry : entries k = guard) (hsearches : pc.Searches address) (hpc : pc.Approaches guard k)
    (hstep : findStep entries pc = some pc') : pc'.Approaches guard k := by
  cases pc with
  | idle | returned result => cases hstep
  | loadBegin sought index =>
    have hle : index ≤ k := hpc
    simp only [findStep] at hstep
    split at hstep
    · omega
    · split at hstep <;> cases hstep
      · next hfree =>
        -- the slot of the guard does not read as free
        have hne : index ≠ k := by
          rintro rfl
          rw [hentry] at hfree
          exact hcovers.1 hfree
        exact show index + 1 ≤ k by omega
      · exact ⟨hle, fun heq => by rw [heq, hentry]⟩
  | loadEnd sought index begin =>
    obtain rfl : sought = address := hsearches
    obtain ⟨hle, hbegin⟩ := hpc
    simp only [findStep] at hstep
    split at hstep <;> cases hstep
    · exact Int.natCast_nonneg index
    · next hout =>
      have hne : index ≠ k := by
        rintro rfl
        rw [hbegin rfl, hentry] at hout
        exact hout hcovers.2
      exact show index + 1 ≤ k by omega

theorem findStep_reads (hbounded : pc.Bounded) (hsearches : pc.Searches address)
    (hpc : pc.Reads entries address) (hstep : findStep entries pc = some pc') :
    pc'.Reads entries address := by
  cases pc with
  | idle | returned result => cases hstep
  | loadBegin sought index =>
    simp only [findStep] at hstep
    split at hstep
    · cases hstep
      exact Or.inl rfl
    · split at hstep <;> cases hstep
      · trivial
      · exact ⟨‹_›, rfl⟩
  | loadEnd sought index begin =>
    obtain rfl : sought = address := hsearches
    obtain ⟨hne, hbegin⟩ := hpc
    simp only [findStep] at hstep
    split at hstep <;> cases hstep
    · next hin =>
      refine Or.inr ⟨index, hbounded, rfl, ?_⟩
      rw [Covers, hbegin]
      exact ⟨hne, hin⟩
    · trivial

/-- What a search has read is still there if the taken slots are as they were. -/
theorem reads_kept (hpc : pc.Reads entries address)
    (hkept : ∀ i, (entries i).guardBegin ≠ 0 → entries' i = entries i) :
    pc.Reads entries' address := by
  cases pc with
  | idle | loadBegin sought index => trivial
  | loadEnd sought index begin =>
    obtain ⟨hne, hbegin⟩ := hpc
    exact ⟨hne, by rw [hkept index (hbegin ▸ hne), hbegin]⟩
  | returned result =>
    obtain hnone | ⟨i, hi, hresult, hcovers⟩ := hpc
    · exact Or.inl hnone
    · exact Or.inr ⟨i, hi, hresult, by rwa [hkept i hcovers.1]⟩

/-! ## Every run -/

variable {ops later : List RegistryOp} {called : Registrations}

/-- A search beside a guard that stays registered in slot `k`. -/
structure Misses (address : UIntPtr) (f t k : ℕ) (guard : PoolRegistryEntry)
    (s : Registrations) : Prop where
  ok : ∃ seat, s.Ok seat
  registered : s.guards t = .registered guard
  entry : s.entries k = guard
  searches : (s.finders f).Searches address
  approaches : (s.finders f).Approaches guard k

theorem Misses.step (hcovers : Covers guard address) (hk : k < kMaxRegisteredPools)
    (h : s.Misses address f t k guard) (hcalls : s.Calls op) (hsettled : s.ReadsSettled op)
    (hfind : ∀ other, op ≠ .find f other) (hop : op ≠ .unregister t)
    (hnext : s.next op = some s') : s'.Misses address f t k guard := by
  obtain ⟨seat, hok⟩ := h.ok
  have hentry : s'.entries k = guard := by
    rw [hok.entry_kept hnext (by rw [h.entry]; exact hcovers.1)
      (hok.not_cleared h.registered h.entry), h.entry]
  refine ⟨Ok.next h.ok ⟨hcalls, hsettled⟩ hnext, registered_kept hnext h.registered hop, hentry, ?_,
    ?_⟩
  all_goals obtain ⟨-, hsame⟩ | ⟨-, hstep, -⟩ := next_finder hnext hfind
  · exact hsame ▸ h.searches
  · exact findStep_searches h.searches hstep
  · exact hsame ▸ h.approaches
  · exact findStep_approaches hcovers hk h.entry h.searches h.approaches hstep

/-- A search while no guard is being unregistered. -/
structure Undisturbed (address : UIntPtr) (f : ℕ) (s : Registrations) : Prop where
  ok : ∃ seat, s.Ok seat
  quiet : ∀ u, ¬ (s.guards u).Unregisters
  bounded : (s.finders f).Bounded
  searches : (s.finders f).Searches address
  reads : (s.finders f).Reads s.entries address

theorem Undisturbed.step (h : s.Undisturbed address f) (hcalls : s.Calls op)
    (hsettled : s.ReadsSettled op) (hfind : ∀ other, op ≠ .find f other)
    (hop : ∀ t, op ≠ .unregister t) (hnext : s.next op = some s') : s'.Undisturbed address f := by
  obtain ⟨seat, hok⟩ := h.ok
  have hkept : ∀ i, (s.entries i).guardBegin ≠ 0 → s'.entries i = s.entries i := by
    intro i hbegin
    refine hok.entry_kept hnext hbegin fun u guard hu => h.quiet u ?_
    rw [hu]
    trivial
  have hquiet := unregisters_kept hnext hop h.quiet
  have hok' := Ok.next h.ok ⟨hcalls, hsettled⟩ hnext
  obtain ⟨-, hsame⟩ | ⟨-, hstep, hentries⟩ := next_finder hnext hfind
  · refine ⟨hok', hquiet, hsame ▸ h.bounded, hsame ▸ h.searches, ?_⟩
    rw [hsame]
    exact reads_kept h.reads hkept
  · refine ⟨hok', hquiet, (findStep_left h.bounded hstep).1, findStep_searches h.searches hstep, ?_⟩
    rw [hentries]
    exact findStep_reads h.bounded h.searches h.reads hstep

end

/-- A guard is unregistered between the two loads of its slot, and another one registered there. -/
def slotChangesHands : List RegistryOp :=
  [.register 0 ⟨0x10000, 0x11000⟩, .guardStep 0, .guardStep 0, .guardStep 0, .find 7 0x20000,
    .findStep 7, .unregister 0, .guardStep 0, .guardStep 0, .guardStep 0,
    .register 0 ⟨0x30000, 0x31000⟩, .guardStep 0, .guardStep 0, .guardStep 0, .findStep 7]

/-- The search finds an address that lies in neither guard. -/
theorem search_mixes_guards :
    ∃ s, run next start slotChangesHands = some s ∧ s.finders 7 = .returned 0 ∧
      ∀ u, u ≠ 0 → s.guards u = .idle := by
  refine ⟨_, rfl, rfl, fun u hu => ?_⟩
  simp [start, hu]

end Registrations

end Doost.Pools
