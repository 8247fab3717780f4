import Mathlib.Algebra.BigOperators.Group.Finset.Basic
import Mathlib.Algebra.Ring.Nat
import Mathlib.Data.List.Basic
import Mathlib.Logic.Function.Basic
import Mathlib.Tactic.Linarith

/-!
# Copies made in parts

A block of `size` bytes is split into `n` chunks: quotient chunks, and a last chunk that takes the
remainder (`chunkStart`, `chunkSize`). The chunks lie inside the block (`chunk_end_le`), in order
(`chunk_end_le_start`), and cover it (`exists_chunk`).

`Copied before dst src wrote after writes` describes the memory in the middle of a copy whose bytes
several writers move in any order: `wrote w k` says that `w` has moved byte `k`, and `writes` is
the log of the byte writes. One more byte keeps the description (`Copied.write`), and a copy whose
bytes have all been moved is the whole copy (`Copied.complete`).
-/

namespace Doost.SplitCopy

/-! ## Chunks -/

/-- The offset of chunk `i` of the `n` chunks of `size` bytes. -/
def chunkStart (n size i : ℕ) : ℕ :=
  i * (size / n)

/-- The length of chunk `i`: the last chunk takes what the quotient leaves over. -/
def chunkSize (n size i : ℕ) : ℕ :=
  if i = n - 1 then size - i * (size / n) else size / n

variable {n size i j k : ℕ}

theorem chunkStart_succ : chunkStart n size (i + 1) = chunkStart n size i + size / n := by
  simp only [chunkStart, Nat.succ_mul]

theorem chunkStart_mono (h : i ≤ j) : chunkStart n size i ≤ chunkStart n size j :=
  Nat.mul_le_mul_right _ h

theorem chunkStart_le (h : i ≤ n) : chunkStart n size i ≤ size :=
  calc i * (size / n) ≤ n * (size / n) := Nat.mul_le_mul_right _ h
    _ ≤ size := Nat.mul_div_le size n

/-- A chunk that is not the last one ends where the next one begins. -/
theorem chunk_end_eq (h : i + 1 < n) :
    chunkStart n size i + chunkSize n size i = chunkStart n size (i + 1) := by
  have hlast : i ≠ n - 1 := by omega
  rw [chunkStart_succ, chunkSize, if_neg hlast]

/-- The last chunk ends at the end of the block. -/
theorem chunk_end_last (h : i + 1 = n) :
    chunkStart n size i + chunkSize n size i = size := by
  have hlast : i = n - 1 := by omega
  have hle : chunkStart n size i ≤ size := chunkStart_le (by omega)
  rw [chunkSize, if_pos hlast]
  unfold chunkStart at hle ⊢
  omega

theorem chunk_end_le (h : i < n) : chunkStart n size i + chunkSize n size i ≤ size := by
  rcases Nat.lt_or_ge (i + 1) n with hi | hi
  · rw [chunk_end_eq hi]
    exact chunkStart_le (by omega)
  · rw [chunk_end_last (by omega)]

/-- Chunks lie one after the other. -/
theorem chunk_end_le_start (hij : i < j) (hj : j < n) :
    chunkStart n size i + chunkSize n size i ≤ chunkStart n size j := by
  rw [chunk_end_eq (by omega)]
  exact chunkStart_mono hij

/-- No byte is in two chunks. -/
theorem chunk_unique (hi : i < n) (hj : j < n)
    (hik : chunkStart n size i ≤ k ∧ k < chunkStart n size i + chunkSize n size i)
    (hjk : chunkStart n size j ≤ k ∧ k < chunkStart n size j + chunkSize n size j) : i = j := by
  rcases Nat.lt_trichotomy i j with h | h | h
  · have hend : chunkStart n size i + chunkSize n size i ≤ chunkStart n size j :=
      chunk_end_le_start h hj
    omega
  · exact h
  · have hend : chunkStart n size j + chunkSize n size j ≤ chunkStart n size i :=
      chunk_end_le_start h hi
    omega

/-- The first `j` chunks cover the bytes before chunk `j`. -/
theorem exists_chunk_before (hj : j < n) (hk : k < chunkStart n size j) :
    ∃ i < n, chunkStart n size i ≤ k ∧ k < chunkStart n size i + chunkSize n size i := by
  induction j with
  | zero => simp [chunkStart] at hk
  | succ j ih =>
    rcases Nat.lt_or_ge k (chunkStart n size j) with h | h
    · exact ih (by omega) h
    · exact ⟨j, by omega, h, by rwa [chunk_end_eq hj]⟩

/-- Every byte is in a chunk. -/
theorem exists_chunk (hn : 0 < n) (hk : k < size) :
    ∃ i < n, chunkStart n size i ≤ k ∧ k < chunkStart n size i + chunkSize n size i := by
  obtain ⟨m, rfl⟩ : ∃ m, n = m + 1 := ⟨n - 1, by omega⟩
  rcases Nat.lt_or_ge k (chunkStart (m + 1) size m) with h | h
  · exact exists_chunk_before (by omega) h
  · exact ⟨m, by omega, h, by rwa [chunk_end_last rfl]⟩

/-- Together the chunks have the bytes of the block. -/
theorem sum_chunkSize (hn : 0 < n) : ∑ i ∈ Finset.range n, chunkSize n size i = size := by
  have hbefore : ∀ j, j + 1 ≤ n →
      ∑ i ∈ Finset.range j, chunkSize n size i = chunkStart n size j := by
    intro j hj
    induction j with
    | zero => simp [chunkStart]
    | succ j ih => rw [Finset.sum_range_succ, ih (by omega), chunk_end_eq (by omega)]
  obtain ⟨m, rfl⟩ : ∃ m, n = m + 1 := ⟨n - 1, by omega⟩
  rw [Finset.sum_range_succ, hbefore m le_rfl, chunk_end_last rfl]

/-! ## Copies in progress -/

variable {W B : Type*}

/-- The writers of the address `a`, one for each write. -/
def writersOf (writes : List (W × ℕ)) (a : ℕ) : List W :=
  (writes.filter fun e => e.2 = a).map Prod.fst

theorem writersOf_cons_self (w : W) (a : ℕ) (writes : List (W × ℕ)) :
    writersOf ((w, a) :: writes) a = w :: writersOf writes a := by
  simp [writersOf]

theorem writersOf_cons_of_ne (w : W) {a b : ℕ} (h : b ≠ a) (writes : List (W × ℕ)) :
    writersOf ((w, b) :: writes) a = writersOf writes a := by
  simp [writersOf, h]

/-- The memory `after` some bytes of a copy to `dst` from `src` have been moved: `wrote w k` says
that `w` has moved byte `k`, and `writes` lists the byte writes. -/
structure Copied (before : ℕ → B) (dst src : ℕ) (wrote : W → ℕ → Prop) (after : ℕ → B)
    (writes : List (W × ℕ)) : Prop where
  moved : ∀ w k, wrote w k →
    after (dst + k) = before (src + k) ∧ writersOf writes (dst + k) = [w]
  kept : ∀ a, (∀ w k, wrote w k → a ≠ dst + k) → after a = before a ∧ writersOf writes a = []

namespace Copied

variable {before after : ℕ → B} {dst src : ℕ} {wrote wrote' : W → ℕ → Prop}
  {writes : List (W × ℕ)}

theorem nothing (hwrote : ∀ w k, ¬ wrote w k) : Copied before dst src wrote before [] :=
  ⟨fun w k h => absurd h (hwrote w k), fun _ _ => ⟨rfl, rfl⟩⟩

theorem congr (h : Copied before dst src wrote after writes)
    (hiff : ∀ w k, wrote' w k ↔ wrote w k) : Copied before dst src wrote' after writes :=
  ⟨fun w k hw => h.moved w k ((hiff w k).mp hw),
    fun a ha => h.kept a fun w k hw => ha w k ((hiff w k).mpr hw)⟩

/-- One more byte: `w` moves byte `k`, which nobody has moved and whose source is not among the
bytes already written. -/
theorem write (h : Copied before dst src wrote after writes) {w : W}
    (hnew : ∀ w', ¬ wrote w' k) (hsource : ∀ w' k', wrote w' k' → src + k ≠ dst + k')
    (hiff : ∀ w' k', wrote' w' k' ↔ wrote w' k' ∨ (w' = w ∧ k' = k)) :
    Copied before dst src wrote' (Function.update after (dst + k) (after (src + k)))
      ((w, dst + k) :: writes) := by
  have hfresh : ∀ w' k', wrote w' k' → dst + k ≠ dst + k' := by
    intro w' k' hw heq
    obtain rfl : k = k' := by omega
    exact hnew w' hw
  constructor
  · intro w' k' hw
    rcases (hiff w' k').mp hw with hold | ⟨rfl, rfl⟩
    · have hne := hfresh w' k' hold
      rw [Function.update_of_ne hne.symm, writersOf_cons_of_ne w hne]
      exact h.moved w' k' hold
    · rw [Function.update_self, writersOf_cons_self, (h.kept _ hsource).1, (h.kept _ hfresh).2]
      exact ⟨rfl, rfl⟩
  · intro a ha
    have hne : a ≠ dst + k := ha w k ((hiff w k).mpr (Or.inr ⟨rfl, rfl⟩))
    rw [Function.update_of_ne hne, writersOf_cons_of_ne w hne.symm]
    exact h.kept a fun w' k' hw => ha w' k' ((hiff w' k').mpr (Or.inl hw))

/-- A copy whose bytes have all been moved, between buffers that do not overlap. -/
theorem complete (h : Copied before dst src wrote after writes)
    (hseparate : dst + size ≤ src ∨ src + size ≤ dst) (hbound : ∀ w k, wrote w k → k < size)
    (hall : ∀ k < size, ∃ w, wrote w k) :
    (∀ k < size, after (dst + k) = after (src + k)) ∧
      (∀ a, a < dst ∨ dst + size ≤ a → after a = before a ∧ writersOf writes a = []) ∧
      ∀ k < size, ∃ w, wrote w k ∧ writersOf writes (dst + k) = [w] := by
  have houtside : ∀ a, a < dst ∨ dst + size ≤ a → after a = before a ∧ writersOf writes a = [] := by
    intro a ha
    refine h.kept a fun w k hw => ?_
    have := hbound w k hw
    omega
  refine ⟨fun k hk => ?_, houtside, fun k hk => ?_⟩
  · obtain ⟨w, hw⟩ := hall k hk
    rw [(h.moved w k hw).1, (houtside (src + k) (by omega)).1]
  · obtain ⟨w, hw⟩ := hall k hk
    exact ⟨w, hw, (h.moved w k hw).2⟩

end Copied

end Doost.SplitCopy
