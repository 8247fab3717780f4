import Mathlib.Algebra.BigOperators.Group.List.Basic
import Mathlib.Algebra.Module.NatInt
import Mathlib.Algebra.Order.BigOperators.Group.Finset
import Doost.Foundations.Transition

/-!
# The cost of runs

A potential is a number in the state from which the steps of a run are paid. A step that costs
`cost l` takes at least that much out of the potential, and may put `paid l` into it; the cost of a
run is then bounded by the potential at its beginning and what its labels have put in
(`run_cost_le`, `Along.cost_le`).

The potential of a system of many threads is the sum of what each has left (`sum_range_step`,
`sum_range_le_add_mul`).

Where nothing is put in, the potential bounds the length of every run. A system whose runs are
bounded can be run until nothing is enabled any more (`exists_stuck`).
-/

namespace Doost.Transition

variable {S L : Type*} {next : S → L → Option S}

/-- What the labels of a run cost together. -/
def cost (f : L → ℕ) (ls : List L) : ℕ := (ls.map f).sum

@[simp] theorem cost_nil (f : L → ℕ) : cost f [] = 0 := rfl

@[simp] theorem cost_cons (f : L → ℕ) (l : L) (ls : List L) :
    cost f (l :: ls) = f l + cost f ls := by
  rw [cost, cost, List.map_cons, List.sum_cons]

theorem cost_eq_length {f : L → ℕ} {ls : List L} (h : ∀ l ∈ ls, f l = 1) :
    cost f ls = ls.length := by
  induction ls with
  | nil => rfl
  | cons l ls ih =>
    rw [cost_cons, h l (by simp), ih fun m hm => h m (by simp [hm]), List.length_cons,
      Nat.add_comm]

theorem cost_eq_zero {f : L → ℕ} {ls : List L} (h : ∀ l ∈ ls, f l = 0) : cost f ls = 0 := by
  induction ls with
  | nil => rfl
  | cons l ls ih => rw [cost_cons, h l (by simp), ih fun m hm => h m (by simp [hm])]

theorem cost_eq_countP (p : L → Bool) (ls : List L) :
    cost (fun m => if p m then 1 else 0) ls = ls.countP p := by
  induction ls with
  | nil => rfl
  | cons m ls ih => rw [cost_cons, ih, List.countP_cons, Nat.add_comm]

/-- **The cost of a run is paid for** by the potential at its beginning and by its labels. -/
theorem Along.cost_le {ok : S → L → Prop} {I : S → Prop} {potential : S → ℕ} {f paid : L → ℕ}
    (hstep : ∀ s l s', I s → ok s l → next s l = some s' →
      I s' ∧ potential s' + f l ≤ potential s + paid l)
    {s s' : S} {ls : List L} (hs : I s) (hok : Along next ok s ls)
    (hrun : run next s ls = some s') :
    potential s' + cost f ls ≤ potential s + cost paid ls := by
  induction ls generalizing s with
  | nil =>
    obtain rfl := Option.some.inj hrun
    exact le_rfl
  | cons l ls ih =>
    obtain ⟨t, ht, hrest⟩ := run_cons_eq_some.mp hrun
    obtain ⟨hkept, hfirst⟩ := hstep s l t hs hok.1 ht
    have hlater := ih hkept (hok.2 t ht) hrest
    rw [cost_cons, cost_cons]
    omega

theorem run_cost_le {I : S → Prop} {potential : S → ℕ} {f paid : L → ℕ}
    (hkeep : ∀ s l s', I s → next s l = some s' → I s')
    (hstep : ∀ s l s', I s → next s l = some s' → potential s' + f l ≤ potential s + paid l)
    {s s' : S} {ls : List L} (hs : I s) (hrun : run next s ls = some s') :
    potential s' + cost f ls ≤ potential s + cost paid ls :=
  Along.cost_le (fun s l s' h (_ : True) hnext => ⟨hkeep s l s' h hnext, hstep s l s' h hnext⟩) hs
    (Along.of_forall fun _ _ _ => trivial) hrun

/-! ## Sums of potentials -/

section Sums

variable {f g : ℕ → ℕ} {m i a b : ℕ}

/-- A sum of which one term falls. -/
theorem sum_range_step (hi : i < m) (hsame : ∀ j < m, j ≠ i → g j ≤ f j)
    (hfall : g i + a ≤ f i + b) :
    ∑ j ∈ Finset.range m, g j + a ≤ ∑ j ∈ Finset.range m, f j + b := by
  have hmem : i ∈ Finset.range m := Finset.mem_range.mpr hi
  rw [← Finset.add_sum_erase _ f hmem, ← Finset.add_sum_erase _ g hmem]
  have hrest : ∑ j ∈ (Finset.range m).erase i, g j ≤ ∑ j ∈ (Finset.range m).erase i, f j := by
    refine Finset.sum_le_sum fun j hj => ?_
    obtain ⟨hne, hj⟩ := Finset.mem_erase.mp hj
    exact hsame j (Finset.mem_range.mp hj) hne
  omega

/-- A sum of which every term grows by at most `a`. -/
theorem sum_range_le_add_mul (h : ∀ j < m, g j ≤ f j + a) :
    ∑ j ∈ Finset.range m, g j ≤ ∑ j ∈ Finset.range m, f j + a * m := by
  calc ∑ j ∈ Finset.range m, g j ≤ ∑ j ∈ Finset.range m, (f j + a) :=
        Finset.sum_le_sum fun j hj => h j (Finset.mem_range.mp hj)
    _ = ∑ j ∈ Finset.range m, f j + a * m := by
        rw [Finset.sum_add_distrib, Finset.sum_const, Finset.card_range, smul_eq_mul,
          Nat.mul_comm]

end Sums

/-! ## Runs to the end -/

/-- None of the labels of interest is enabled. -/
def Stuck (next : S → L → Option S) (ok : L → Prop) (s : S) : Prop :=
  ∀ l, ok l → next s l = none

/-- If the runs from `s` are bounded, one of them cannot go on. -/
theorem exists_stuck {ok : L → Prop} {s : S} {bound : ℕ}
    (hbound : ∀ ls s', (∀ l ∈ ls, ok l) → run next s ls = some s' → ls.length ≤ bound) :
    ∃ ls s', (∀ l ∈ ls, ok l) ∧ run next s ls = some s' ∧ Stuck next ok s' := by
  induction bound generalizing s with
  | zero =>
    refine ⟨[], s, by simp, rfl, fun l hl => ?_⟩
    cases hnext : next s l with
    | none => rfl
    | some t =>
      have hone := hbound [l] t (by simpa using hl) (by simp [run, hnext])
      exact absurd hone (by simp)
  | succ bound ih =>
    by_cases hstuck : Stuck next ok s
    · exact ⟨[], s, by simp, rfl, hstuck⟩
    · unfold Stuck at hstuck
      push Not at hstuck
      obtain ⟨l, hl, hne⟩ := hstuck
      obtain ⟨t, ht⟩ := Option.ne_none_iff_exists'.mp hne
      obtain ⟨ls, s', hls, hrun, hend⟩ := ih (s := t) fun ms u hms hmrun => by
        have hlong := hbound (l :: ms) u (List.forall_mem_cons.mpr ⟨hl, hms⟩)
          (run_cons_eq_some.mpr ⟨t, ht, hmrun⟩)
        rw [List.length_cons] at hlong
        omega
      exact ⟨l :: ls, s', List.forall_mem_cons.mpr ⟨hl, hls⟩, run_cons_eq_some.mpr ⟨t, ht, hrun⟩,
        hend⟩

end Doost.Transition
