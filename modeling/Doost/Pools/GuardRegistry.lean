import Mathlib.Data.List.Perm.Basic
import Doost.Pools.Storage

/-!
# The guard registry as a set

`g_pool_registry` is a table of slots, and a slot whose `guard_begin` is zero is free. Read as the
collection of its taken slots, `registerPoolGuard` adds a guard if a slot is free
(`occupied_registerPoolGuard`) and changes nothing otherwise, and `clearPoolGuard` takes out the
guard with the given begin (`occupied_clearPoolGuard`).
-/

namespace Doost.Pools

/-- `kMaxRegisteredPools`. -/
def kMaxRegisteredPools : ℕ := 1024

/-- The registry of a process that has made no pool. -/
def emptyPoolRegistry : List PoolRegistryEntry := List.replicate kMaxRegisteredPools ⟨0, 0⟩

/-- The entries of the slots that are taken. -/
def occupied (registry : List PoolRegistryEntry) : List PoolRegistryEntry :=
  registry.filter fun entry => entry.guardBegin ≠ 0

/-- Some slot is free. -/
def HasFreeSlot (registry : List PoolRegistryEntry) : Prop :=
  ∃ entry ∈ registry, entry.guardBegin = 0

instance (registry : List PoolRegistryEntry) : Decidable (HasFreeSlot registry) :=
  inferInstanceAs (Decidable (∃ entry ∈ registry, entry.guardBegin = 0))

variable {guardBegin guardEnd : UIntPtr} {registry : List PoolRegistryEntry}
  {entry : PoolRegistryEntry}

theorem occupied_cons_of_free (h : entry.guardBegin = 0) :
    occupied (entry :: registry) = occupied registry :=
  List.filter_cons_of_neg (by simp [h])

theorem occupied_cons_of_ne (h : entry.guardBegin ≠ 0) :
    occupied (entry :: registry) = entry :: occupied registry :=
  List.filter_cons_of_pos (by simpa using h)

theorem occupied_emptyPoolRegistry : occupied emptyPoolRegistry = [] :=
  List.filter_eq_nil_iff.mpr fun entry hentry => by
    rw [List.eq_of_mem_replicate hentry]
    simp

/-- A guard is registered in a free slot. -/
theorem occupied_registerPoolGuard (hbegin : guardBegin ≠ 0) (hfree : HasFreeSlot registry) :
    (occupied (registerPoolGuard guardBegin guardEnd registry)).Perm
      (⟨guardBegin, guardEnd⟩ :: occupied registry) := by
  induction registry with
  | nil =>
    obtain ⟨entry, hentry, -⟩ := hfree
    cases hentry
  | cons entry rest ih =>
    simp only [registerPoolGuard]
    split
    · rename_i hzero
      have hnew : (⟨guardBegin, guardEnd⟩ : PoolRegistryEntry).guardBegin ≠ 0 := hbegin
      rw [occupied_cons_of_ne hnew, occupied_cons_of_free hzero]
    · rename_i hne
      have hrest : HasFreeSlot rest := by
        obtain ⟨free, hmem, hzero⟩ := hfree
        rcases List.mem_cons.mp hmem with rfl | hmem
        · exact absurd hzero hne
        · exact ⟨free, hmem, hzero⟩
      rw [occupied_cons_of_ne hne, occupied_cons_of_ne hne]
      exact ((ih hrest).cons entry).trans (List.Perm.swap ..)

/-- A full registry is left as it is. -/
theorem registerPoolGuard_full (hfull : ¬ HasFreeSlot registry) :
    registerPoolGuard guardBegin guardEnd registry = registry := by
  induction registry with
  | nil => rfl
  | cons entry rest ih =>
    have hne : entry.guardBegin ≠ 0 := fun h => hfull ⟨entry, by simp, h⟩
    have hrest : ¬ HasFreeSlot rest := by
      rintro ⟨free, hmem, hzero⟩
      exact hfull ⟨free, by simp [hmem], hzero⟩
    simp only [registerPoolGuard, if_neg hne, ih hrest]

/-- The guard with a given begin is cleared. -/
theorem occupied_clearPoolGuard (hbegin : guardBegin ≠ 0)
    (hnodup : ((occupied registry).map PoolRegistryEntry.guardBegin).Nodup) :
    occupied (clearPoolGuard guardBegin registry) =
      (occupied registry).filter fun entry => entry.guardBegin ≠ guardBegin := by
  induction registry with
  | nil => rfl
  | cons entry rest ih =>
    simp only [clearPoolGuard]
    split
    · -- no later slot holds this begin
      rename_i hentry
      have hne : entry.guardBegin ≠ 0 := hentry ▸ hbegin
      have hcleared : (⟨0, 0⟩ : PoolRegistryEntry).guardBegin = 0 := rfl
      rw [occupied_cons_of_ne hne, List.map_cons, List.nodup_cons] at hnodup
      rw [occupied_cons_of_free hcleared, occupied_cons_of_ne hne,
        List.filter_cons_of_neg (by simp [hentry]), List.filter_eq_self.mpr]
      intro other hother
      have hother' : other.guardBegin ≠ entry.guardBegin := by
        intro heq
        exact hnodup.1 (heq ▸ List.mem_map_of_mem hother)
      simpa [hentry] using hother'
    · rename_i hentry
      rcases eq_or_ne entry.guardBegin 0 with hzero | hne
      · rw [occupied_cons_of_free hzero, occupied_cons_of_free hzero]
        rw [occupied_cons_of_free hzero] at hnodup
        exact ih hnodup
      · rw [occupied_cons_of_ne hne, occupied_cons_of_ne hne,
          List.filter_cons_of_pos (by simpa using hentry)]
        rw [occupied_cons_of_ne hne, List.map_cons, List.nodup_cons] at hnodup
        rw [ih hnodup.2]

end Doost.Pools
