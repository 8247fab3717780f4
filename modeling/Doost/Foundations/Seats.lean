import Mathlib.Data.Set.Card
import Mathlib.Logic.Equiv.Basic

/-!
# Seats for everyone who looks for one

A row of `n` numbered seats and the guests in the room, who have a seat or are on their way along
the row to find a free one. `Seated` gives every guest a seat of their own, to those who are still
looking a free one that they have not passed yet. It survives an arrival as long as there are fewer
than `n` guests (`exists_free`, `arrive`), a departure (`leave`), and a guest who sits down on
another free seat, which is traded with whoever it was meant for (`trade`).
-/

namespace Doost.Seats

variable {ι : Type*}

/-- The guests have seats of their own among the first `n`. -/
structure Seated (n : ℕ) (guests : Set ι) (seat : ι → ℕ) : Prop where
  lt : ∀ t ∈ guests, seat t < n
  sole : ∀ t ∈ guests, ∀ u ∈ guests, seat t = seat u → t = u

namespace Seated

variable {n i : ℕ} {guests : Set ι} {seat : ι → ℕ} {t u : ι}

theorem empty (seat : ι → ℕ) : Seated n ∅ seat where
  lt _ ht := absurd ht (Set.notMem_empty _)
  sole _ ht := absurd ht (Set.notMem_empty _)

/-- With fewer guests than seats some seat is nobody's. -/
theorem exists_free (seat : ι → ℕ) (hguests : guests.encard < n) :
    ∃ i < n, ∀ t ∈ guests, seat t ≠ i := by
  by_contra hnone
  have hrow : (Finset.range n : Set ℕ) ⊆ seat '' guests := by
    intro i hi
    by_contra hi'
    exact hnone ⟨i, Finset.mem_range.mp hi, fun t ht heq => hi' ⟨t, ht, heq⟩⟩
  have hcard := (Set.encard_le_encard hrow).trans (Set.encard_image_le seat guests)
  rw [Set.encard_coe_eq_coe_finsetCard, Finset.card_range] at hcard
  exact absurd hguests (not_lt.mpr hcard)

theorem arrive [DecidableEq ι] (h : Seated n guests seat) (hi : i < n)
    (hfree : ∀ t ∈ guests, seat t ≠ i) (ht : t ∉ guests) :
    Seated n (insert t guests) (Function.update seat t i) := by
  have hsame : ∀ u ∈ guests, Function.update seat t i u = seat u := by
    intro u hu
    refine Function.update_of_ne ?_ ..
    rintro rfl
    exact ht hu
  constructor
  · rintro u (rfl | hu)
    · rwa [Function.update_self]
    · rw [hsame u hu]
      exact h.lt u hu
  · rintro u (rfl | hu) v (rfl | hv) heq
    · rfl
    · rw [Function.update_self, hsame v hv] at heq
      exact absurd heq.symm (hfree v hv)
    · rw [Function.update_self, hsame u hu] at heq
      exact absurd heq (hfree u hu)
    · rw [hsame u hu, hsame v hv] at heq
      exact h.sole u hu v hv heq

theorem leave {rest : Set ι} (h : Seated n guests seat) (hrest : rest ⊆ guests) :
    Seated n rest seat where
  lt t ht := h.lt t (hrest ht)
  sole t ht u hu := h.sole t (hrest ht) u (hrest hu)

/-- Guest `t` takes seat `i`, and whoever it was meant for gets the seat of `t`. -/
theorem trade (h : Seated n guests seat) (ht : t ∈ guests) (hi : i < n) :
    Seated n guests fun u => Equiv.swap i (seat t) (seat u) where
  lt u hu := by
    rcases eq_or_ne (seat u) i with hui | hui
    · rw [hui, Equiv.swap_apply_left]
      exact h.lt t ht
    · rcases eq_or_ne (seat u) (seat t) with hut | hut
      · rwa [hut, Equiv.swap_apply_right]
      · rw [Equiv.swap_apply_of_ne_of_ne hui hut]
        exact h.lt u hu
  sole u hu v hv heq := h.sole u hu v hv ((Equiv.swap i (seat t)).injective heq)

end Seated

end Doost.Seats
