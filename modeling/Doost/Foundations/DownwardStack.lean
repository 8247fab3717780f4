import Mathlib.Algebra.BigOperators.Group.List.Basic
import Mathlib.Algebra.Order.BigOperators.Group.List
import Mathlib.Algebra.Ring.Nat

/-!
# Intervals cut off one below the other

A counter that starts at `E` and is lowered by `size x` for each taker `x` hands out the interval
from `top x - size x` up to `top x`. `Stacked` says of a list of takers, the latest first, that
each one's `top` is `E` minus what was taken before it. It asks this only as long as the counter
has not gone below zero, so that it also describes a counter in modular arithmetic up to the
moment it wraps.
-/

namespace Doost.DownwardStack

variable {α : Type*} (size top : α → ℕ)

/-- The sum of the sizes. -/
def total (l : List α) : ℕ := (l.map size).sum

@[simp] theorem total_nil : total size [] = 0 := rfl

@[simp] theorem total_cons (x : α) (l : List α) : total size (x :: l) = size x + total size l := rfl

theorem total_append (l₁ l₂ : List α) :
    total size (l₁ ++ l₂) = total size l₁ + total size l₂ := by
  rw [total, List.map_append, List.sum_append]
  rfl

theorem total_perm {l₁ l₂ : List α} (h : l₁.Perm l₂) : total size l₁ = total size l₂ :=
  (h.map size).sum_eq

theorem total_eq_of_forall {l : List α} {r : ℕ} (h : ∀ x ∈ l, size x = r) :
    total size l = l.length * r := by
  induction l with
  | nil => simp
  | cons x l ih =>
    rw [total_cons, h x (by simp), ih fun y hy => h y (by simp [hy]), List.length_cons,
      Nat.add_mul, Nat.one_mul, Nat.add_comm]

theorem dvd_total {d : ℕ} {size : α → ℕ} (h : ∀ x, d ∣ size x) (l : List α) :
    d ∣ total size l := by
  induction l with
  | nil => exact Nat.dvd_zero d
  | cons x l ih => exact Nat.dvd_add (h x) ih

/-- Each taker starts where the ones before it left off. -/
def Stacked (E : ℕ) : List α → Prop
  | [] => True
  | x :: l => (total size l ≤ E → top x + total size l = E) ∧ Stacked E l

variable {size top}

/-- The takers up to some point are stacked. -/
theorem Stacked.of_append {E : ℕ} {l₁ l₂ : List α} (h : Stacked size top E (l₁ ++ l₂)) :
    Stacked size top E l₂ := by
  induction l₁ with
  | nil => exact h
  | cons x l₁ ih => exact ih h.2

/-- Every taker's interval lies between what is left and `E`. -/
theorem Stacked.bounds {E : ℕ} {l : List α} (h : Stacked size top E l) (ht : total size l ≤ E) :
    ∀ x ∈ l, E - total size l + size x ≤ top x ∧ top x ≤ E := by
  induction l with
  | nil => simp
  | cons y l ih =>
    rw [total_cons] at ht
    have hy := h.1 (by omega)
    intro x hx
    rw [total_cons]
    rcases List.mem_cons.mp hx with rfl | hx
    · omega
    · have := ih h.2 (by omega) x hx
      omega

/-- What divides the starting value and every size divides every `top`. -/
theorem Stacked.dvd_top {E d : ℕ} {l : List α} (h : Stacked size top E l)
    (ht : total size l ≤ E) (hE : d ∣ E) (hsize : ∀ x, d ∣ size x) : ∀ x ∈ l, d ∣ top x := by
  induction l with
  | nil => simp
  | cons y l ih =>
    rw [total_cons] at ht
    have hy := h.1 (by omega)
    intro x hx
    rcases List.mem_cons.mp hx with rfl | hx
    · exact (Nat.dvd_add_left (dvd_total hsize l)).mp (hy ▸ hE)
    · exact ih h.2 (by omega) x hx

/-- Of two takers, the later one's interval lies below the earlier one's. -/
theorem Stacked.pairwise {E : ℕ} {l : List α} (h : Stacked size top E l)
    (ht : total size l ≤ E) : l.Pairwise fun x y => top x + size y ≤ top y := by
  induction l with
  | nil => exact List.Pairwise.nil
  | cons x l ih =>
    rw [total_cons] at ht
    have hx := h.1 (by omega)
    refine List.pairwise_cons.mpr ⟨fun y hy => ?_, ih h.2 (by omega)⟩
    have := h.2.bounds (by omega) y hy
    omega

end Doost.DownwardStack
