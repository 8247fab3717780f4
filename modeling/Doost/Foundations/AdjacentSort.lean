import Mathlib.Data.List.Basic

/-!
# Stable sorting by exchanges of neighbours

The invariants of a bubble sort, for elements that are compared by a key. `Settled` is what holds
between two passes: the rest of the list is in its final place. `Passing` is what holds within a
pass, with the greatest element so far at the front of what is left. Neighbours are only exchanged
when their keys are out of order, so that elements with one key stay in their order
(`StablyRearranged`).
-/

namespace Doost.AdjacentSort

variable {α κ : Type*} [DecidableEq κ] {key : α → κ} {xs ys zs front rest unsorted sorted : List α}
  {a b : α}

/-- `ys` is `xs` rearranged, with the elements of each key in their old order. -/
structure StablyRearranged (key : α → κ) (xs ys : List α) : Prop where
  perm : ys.Perm xs
  filter_eq : ∀ k, ys.filter (fun a => key a = k) = xs.filter fun a => key a = k

namespace StablyRearranged

theorem refl (key : α → κ) (xs : List α) : StablyRearranged key xs xs :=
  ⟨.refl xs, fun _ => rfl⟩

theorem trans (hxy : StablyRearranged key xs ys) (hyz : StablyRearranged key ys zs) :
    StablyRearranged key xs zs :=
  ⟨hyz.perm.trans hxy.perm, fun k => (hyz.filter_eq k).trans (hxy.filter_eq k)⟩

/-- Neighbours with different keys change places. -/
theorem exchange (hab : key a ≠ key b) (front rest : List α) :
    StablyRearranged key (front ++ a :: b :: rest) (front ++ b :: a :: rest) := by
  refine ⟨(List.Perm.swap a b rest).append_left front, fun k => ?_⟩
  rw [List.filter_append, List.filter_append]
  congr 1
  by_cases ha : key a = k
  · have hb : key b ≠ k := fun hb => hab (ha.trans hb.symm)
    simp [ha, hb]
  · simp [List.filter_cons, ha]

end StablyRearranged

/-! ## Passes -/

variable [Ord κ]

/-- No element has a smaller key than one before it. -/
def Ascending (key : α → κ) (xs : List α) : Prop :=
  xs.Pairwise fun a b => compare (key b) (key a) ≠ .lt

/-- `unsorted ++ sorted` is what the passes so far have made of `xs`: `sorted` is in its place. -/
structure Settled (key : α → κ) (xs unsorted sorted : List α) : Prop where
  stable : StablyRearranged key xs (unsorted ++ sorted)
  ascending : Ascending key sorted
  below : ∀ a ∈ unsorted, ∀ b ∈ sorted, compare (key b) (key a) ≠ .lt

/-- A pass has come to `a`, the greatest element of `front ++ [a]`, with `rest` still to go. -/
structure Passing (key : α → κ) (xs front : List α) (a : α) (rest sorted : List α) : Prop where
  settled : Settled key xs (front ++ a :: rest) sorted
  greatest : ∀ c ∈ front, compare (key a) (key c) ≠ .lt

theorem Settled.start (key : α → κ) (xs : List α) : Settled key xs xs [] where
  stable := by
    rw [List.append_nil]
    exact .refl key xs
  ascending := List.Pairwise.nil
  below := fun _ _ _ hb => absurd hb List.not_mem_nil

theorem Settled.pass (hs : Settled key xs (a :: rest) sorted) : Passing key xs [] a rest sorted :=
  ⟨hs, fun _ hc => absurd hc List.not_mem_nil⟩

section Order

variable [Std.TransOrd κ]

omit [DecidableEq κ] in
theorem not_lt_trans {i j k : κ} (hij : compare j i ≠ .lt) (hjk : compare k j ≠ .lt) :
    compare k i ≠ .lt := by
  rw [ne_eq, Ordering.ne_lt_iff_isGE] at hij hjk ⊢
  exact Std.TransCmp.isGE_trans hjk hij

/-- The next element is not smaller, and goes on as the greatest. -/
theorem Passing.keep (hp : Passing key xs front a (b :: rest) sorted)
    (hab : compare (key b) (key a) ≠ .lt) : Passing key xs (front ++ [a]) b rest sorted where
  settled := by
    rw [List.append_assoc, List.singleton_append]
    exact hp.settled
  greatest := by
    intro c hc
    rcases List.mem_append.mp hc with hc | hc
    · exact not_lt_trans (hp.greatest c hc) hab
    · rwa [List.mem_singleton.mp hc]

/-- The next element is smaller, and changes places with the greatest so far. -/
theorem Passing.exchange [Std.LawfulEqOrd κ] (hp : Passing key xs front a (b :: rest) sorted)
    (hab : compare (key b) (key a) = .lt) : Passing key xs (front ++ [b]) a rest sorted where
  settled := by
    have hne : key a ≠ key b := by
      intro heq
      rw [heq, Std.LawfulEqOrd.compare_eq_iff_eq.mpr rfl] at hab
      cases hab
    rw [List.append_assoc, List.singleton_append]
    refine ⟨hp.settled.stable.trans ?_, hp.settled.ascending, fun c hc => ?_⟩
    · simpa using StablyRearranged.exchange hne front (rest ++ sorted)
    · refine hp.settled.below c ?_
      rwa [((List.Perm.swap a b rest).append_left front).mem_iff] at hc
  greatest := by
    intro c hc
    rcases List.mem_append.mp hc with hc | hc
    · exact hp.greatest c hc
    · rw [List.mem_singleton.mp hc]
      exact Std.OrientedCmp.not_lt_of_lt hab

end Order

/-- At the end of a pass the greatest element is in its place. -/
theorem Passing.finish (hp : Passing key xs front a [] sorted) :
    Settled key xs front (a :: sorted) where
  stable := by simpa using hp.settled.stable
  ascending := by
    refine List.pairwise_cons.mpr ⟨fun b hb => ?_, hp.settled.ascending⟩
    exact hp.settled.below a (List.mem_append_right front List.mem_cons_self) b hb
  below := by
    intro c hc b hb
    rcases List.mem_cons.mp hb with rfl | hb
    · exact hp.greatest c hc
    · exact hp.settled.below c (List.mem_append_left _ hc) b hb

/-- **When nothing is left to pass over, the list is sorted.** -/
theorem Settled.finish (hs : Settled key xs [] sorted) :
    StablyRearranged key xs sorted ∧ Ascending key sorted :=
  ⟨hs.stable, hs.ascending⟩

end Doost.AdjacentSort
