import Mathlib.Order.BooleanAlgebra.Set
import Mathlib.Logic.Function.Basic

/-!
# Resources with one owner each

`OwnedOnce held live`: every live resource is held by exactly one owner, and whatever is held is
live. This survives the three things an owner can do: take a resource that was not live
(`OwnedOnce.acquire`), end the life of the one it holds (`OwnedOnce.drop`), and hand it to an owner
that holds nothing (`OwnedOnce.pass`).
-/

namespace Doost.SoleOwners

variable {ι ρ : Type*}

/-- Each live resource has one owner, and only live resources are held. -/
structure OwnedOnce (held : ι → Option ρ) (live : Set ρ) : Prop where
  owner : ∀ r ∈ live, ∃ i, held i = some r
  live : ∀ i r, held i = some r → r ∈ live
  sole : ∀ i j r, held i = some r → held j = some r → i = j

namespace OwnedOnce

theorem empty : OwnedOnce (fun _ : ι => (none : Option ρ)) ∅ where
  owner _ hr := absurd hr (Set.notMem_empty _)
  live _ _ h := by cases h
  sole _ _ _ h _ := by cases h

variable {held : ι → Option ρ} {live : Set ρ} {i j : ι} {r : ρ}

theorem existsUnique (h : OwnedOnce held live) (hr : r ∈ live) : ∃! i, held i = some r := by
  obtain ⟨i, hi⟩ := h.owner r hr
  exact ⟨i, hi, fun j hj => h.sole j i r hj hi⟩

variable [DecidableEq ι]

/-- An owner that holds nothing takes a resource that was not live. -/
theorem acquire (h : OwnedOnce held live) (hi : held i = none) (hr : r ∉ live) :
    OwnedOnce (Function.update held i (some r)) (insert r live) where
  owner q hq := by
    rcases hq with rfl | hq
    · exact ⟨i, Function.update_self ..⟩
    · obtain ⟨j, hj⟩ := h.owner q hq
      have hji : j ≠ i := by
        rintro rfl
        rw [hi] at hj
        cases hj
      exact ⟨j, (Function.update_of_ne hji ..).trans hj⟩
  live j q hj := by
    rcases eq_or_ne j i with rfl | hji
    · rw [Function.update_self] at hj
      exact Or.inl (Option.some.inj hj).symm
    · rw [Function.update_of_ne hji] at hj
      exact Or.inr (h.live j q hj)
  sole j k q hj hk := by
    rcases eq_or_ne j i with rfl | hji
    · rcases eq_or_ne k j with rfl | hkj
      · rfl
      · rw [Function.update_self] at hj
        rw [Function.update_of_ne hkj] at hk
        obtain rfl := Option.some.inj hj
        exact absurd (h.live k _ hk) hr
    · rw [Function.update_of_ne hji] at hj
      rcases eq_or_ne k i with rfl | hki
      · rw [Function.update_self] at hk
        obtain rfl := Option.some.inj hk
        exact absurd (h.live j _ hj) hr
      · rw [Function.update_of_ne hki] at hk
        exact h.sole j k q hj hk

/-- An owner ends the life of the resource it holds. -/
theorem drop (h : OwnedOnce held live) (hi : held i = some r) :
    OwnedOnce (Function.update held i none) (live \ {r}) where
  owner q hq := by
    obtain ⟨j, hj⟩ := h.owner q hq.1
    have hji : j ≠ i := by
      rintro rfl
      exact hq.2 (Option.some.inj (hj.symm.trans hi))
    exact ⟨j, (Function.update_of_ne hji ..).trans hj⟩
  live j q hj := by
    rcases eq_or_ne j i with rfl | hji
    · rw [Function.update_self] at hj
      cases hj
    · rw [Function.update_of_ne hji] at hj
      refine ⟨h.live j q hj, ?_⟩
      rintro rfl
      exact hji (h.sole j i _ hj hi)
  sole j k q hj hk := by
    rcases eq_or_ne j i with rfl | hji
    · rw [Function.update_self] at hj
      cases hj
    · rcases eq_or_ne k i with rfl | hki
      · rw [Function.update_self] at hk
        cases hk
      · rw [Function.update_of_ne hji] at hj
        rw [Function.update_of_ne hki] at hk
        exact h.sole j k q hj hk

/-- An owner hands what it holds to an owner that holds nothing. -/
theorem pass (h : OwnedOnce held live) (hi : held i = none) :
    OwnedOnce (Function.update (Function.update held i (held j)) j none) live := by
  rcases hj : held j with _ | r
  · -- nothing is handed over
    have hsame : Function.update (Function.update held i none) j none = held := by
      rw [← hi, Function.update_eq_self, hi, ← hj, Function.update_eq_self]
    rwa [hsame]
  · have hdropped := (h.drop hj).acquire (i := i) (r := r) ?_ (fun hr => hr.2 rfl)
    · have hij : i ≠ j := by
        rintro rfl
        rw [hi] at hj
        cases hj
      have hlive : insert r (live \ {r}) = live := by
        rw [Set.insert_sdiff_singleton, Set.insert_eq_of_mem (h.live j r hj)]
      rwa [Function.update_comm hij.symm, hlive] at hdropped
    · rcases eq_or_ne i j with rfl | hij
      · exact Function.update_self ..
      · rw [Function.update_of_ne hij, hi]

end OwnedOnce

end Doost.SoleOwners
