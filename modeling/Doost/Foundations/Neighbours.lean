import Mathlib.Data.List.Nodup
import Mathlib.Logic.Equiv.Basic

/-!
# Neighbours in a list

`nextIn l x` and `prevIn l x` are the elements after and before `x` in a repetition-free list `l`:
what the two link fields of an intrusive doubly linked list hold. The lemmas say how the neighbours
change when an element is pushed to the front, removed, or renamed, one lemma for each link field.
-/

namespace Doost.Neighbours

variable {α β : Type*} [DecidableEq α] [DecidableEq β]

/-- The element after `x` in `l`. -/
def nextIn : List α → α → Option α
  | [], _ => none
  | a :: l, x => if x = a then l.head? else nextIn l x

/-- The element before `x` in `l`. -/
def prevIn : List α → α → Option α
  | [], _ => none
  | a :: l, x => if l.head? = some x then some a else prevIn l x

@[simp] theorem nextIn_nil (x : α) : nextIn [] x = none := rfl

@[simp] theorem prevIn_nil (x : α) : prevIn [] x = none := rfl

theorem nextIn_cons (a x : α) (l : List α) :
    nextIn (a :: l) x = if x = a then l.head? else nextIn l x := rfl

theorem prevIn_cons (a x : α) (l : List α) :
    prevIn (a :: l) x = if l.head? = some x then some a else prevIn l x := rfl

theorem nextIn_of_notMem {l : List α} {x : α} (h : x ∉ l) : nextIn l x = none := by
  induction l with
  | nil => rfl
  | cons a l ih =>
    rw [List.mem_cons, not_or] at h
    rw [nextIn_cons, if_neg h.1, ih h.2]

theorem prevIn_of_notMem_tail {l : List α} {x : α} (h : x ∉ l.tail) : prevIn l x = none := by
  induction l with
  | nil => rfl
  | cons a l ih =>
    rw [List.tail_cons] at h
    have hhead : l.head? ≠ some x := fun hx => h (List.mem_of_mem_head? hx)
    rw [prevIn_cons, if_neg hhead, ih fun hx => h (List.mem_of_mem_tail hx)]

theorem prevIn_of_notMem {l : List α} {x : α} (h : x ∉ l) : prevIn l x = none :=
  prevIn_of_notMem_tail fun hx => h (List.mem_of_mem_tail hx)

/-! ## At a given place -/

theorem nextIn_middle {l₁ l₂ : List α} {x : α} (h : x ∉ l₁) :
    nextIn (l₁ ++ x :: l₂) x = l₂.head? := by
  induction l₁ with
  | nil => rw [List.nil_append, nextIn_cons, if_pos rfl]
  | cons a l₁ ih =>
    rw [List.mem_cons, not_or] at h
    rw [List.cons_append, nextIn_cons, if_neg h.1, ih h.2]

theorem prevIn_middle {l₁ l₂ : List α} {x : α} (h : (l₁ ++ x :: l₂).Nodup) :
    prevIn (l₁ ++ x :: l₂) x = l₁.getLast? := by
  induction l₁ with
  | nil => exact prevIn_of_notMem_tail (List.nodup_cons.mp h).1
  | cons a l₁ ih =>
    rw [List.cons_append, List.nodup_cons] at h
    rw [List.cons_append, prevIn_cons, ih h.2]
    cases l₁ with
    | nil => simp
    | cons b l₁ =>
      -- `x` is not right behind `a`
      have hbx : b ≠ x := by
        rintro rfl
        simp at h
      simp [hbx, List.getLast?_cons]

theorem prevIn_eq_none_iff {l : List α} {x : α} (hx : x ∈ l) (h : l.Nodup) :
    prevIn l x = none ↔ l.head? = some x := by
  obtain ⟨l₁, l₂, rfl⟩ := List.append_of_mem hx
  rw [prevIn_middle h]
  cases l₁ with
  | nil => simp
  | cons a l₁ =>
    have hax : a ≠ x := by
      rintro rfl
      simp at h
    simp [hax]

theorem nextIn_eq_none_iff {l : List α} {x : α} (hx : x ∈ l) (h : l.Nodup) :
    nextIn l x = none ↔ l.getLast? = some x := by
  obtain ⟨l₁, l₂, rfl⟩ := List.append_of_mem hx
  obtain ⟨-, hxl₂, hapart⟩ := List.nodup_append.mp h
  have hxl₁ : x ∉ l₁ := fun h => hapart x h x List.mem_cons_self rfl
  rw [nextIn_middle hxl₁, List.getLast?_append, List.getLast?_cons]
  cases l₂ with
  | nil => simp
  | cons a l₂ =>
    have hlast : (a :: l₂).getLast (List.cons_ne_nil a l₂) ≠ x := fun hl =>
      (List.nodup_cons.mp hxl₂).1 (hl ▸ List.getLast_mem _)
    simp [List.getLast?_eq_some_getLast, hlast]

theorem prevIn_ne_self {l : List α} (h : l.Nodup) (x : α) : prevIn l x ≠ some x := by
  by_cases hx : x ∈ l
  · obtain ⟨l₁, l₂, rfl⟩ := List.append_of_mem hx
    rw [prevIn_middle h]
    intro hlast
    exact (List.nodup_cons.mp (List.nodup_middle.mp h)).1
      (List.mem_append_left _ (List.mem_of_getLast? hlast))
  · simp [prevIn_of_notMem hx]

/-- In a repetition-free list the two neighbour functions are inverse to each other. -/
theorem nextIn_eq_some_iff {l : List α} (h : l.Nodup) {x y : α} :
    nextIn l x = some y ↔ prevIn l y = some x := by
  induction l with
  | nil => simp
  | cons a l ih =>
    obtain ⟨ha, hl⟩ := List.nodup_cons.mp h
    rw [nextIn_cons, prevIn_cons]
    by_cases hxa : x = a
    · subst hxa
      rw [if_pos rfl]
      by_cases hy : l.head? = some y
      · simp [hy]
      · rw [if_neg hy, ← ih hl, nextIn_of_notMem ha]
        simp [hy]
    · rw [if_neg hxa, ih hl]
      by_cases hy : l.head? = some y
      · have hnone : prevIn l y = none := by
          cases l with
          | nil => rfl
          | cons b l =>
            obtain rfl := Option.some.inj (List.head?_cons.symm.trans hy)
            exact prevIn_of_notMem_tail (List.nodup_cons.mp hl).1
        simp [hy, hnone, Ne.symm hxa]
      · rw [if_neg hy]

theorem nextIn_ne_self {l : List α} (h : l.Nodup) (x : α) : nextIn l x ≠ some x := fun hx =>
  prevIn_ne_self h x ((nextIn_eq_some_iff h).mp hx)

theorem mem_of_nextIn {l : List α} {x y : α} (h : nextIn l x = some y) : y ∈ l := by
  induction l with
  | nil => simp at h
  | cons a l ih =>
    rw [nextIn_cons] at h
    split at h
    · exact List.mem_cons_of_mem _ (List.mem_of_mem_head? h)
    · exact List.mem_cons_of_mem _ (ih h)

theorem mem_of_prevIn {l : List α} {x y : α} (h : prevIn l x = some y) : y ∈ l := by
  induction l with
  | nil => simp at h
  | cons a l ih =>
    rw [prevIn_cons] at h
    split at h
    · obtain rfl := Option.some.inj h
      exact List.mem_cons_self
    · exact List.mem_cons_of_mem _ (ih h)

/-! ## Removing an element -/

section Remove

variable {l₁ l₂ : List α} {x z : α}

theorem nextIn_remove (h : (l₁ ++ x :: l₂).Nodup) (hz : z ≠ x) :
    nextIn (l₁ ++ l₂) z =
      if l₁.getLast? = some z then l₂.head? else nextIn (l₁ ++ x :: l₂) z := by
  induction l₁ with
  | nil => simp [nextIn_cons, hz]
  | cons a l₁ ih =>
    rw [List.cons_append, List.nodup_cons] at h
    rw [List.cons_append, List.cons_append, nextIn_cons, nextIn_cons, ih h.2]
    cases l₁ with
    | nil =>
      by_cases hza : z = a
      · simp [hza]
      · simp [hza, Ne.symm hza]
    | cons b l₁ =>
      by_cases hza : z = a
      · subst hza
        have hlast : (b :: l₁).getLast? ≠ some z := fun hl =>
          h.1 (List.mem_append_left _ (List.mem_of_getLast? hl))
        rw [if_pos rfl, if_pos rfl, List.getLast?_cons_cons, if_neg hlast]
        rfl
      · rw [if_neg hza, if_neg hza, List.getLast?_cons_cons]

theorem prevIn_remove (h : (l₁ ++ x :: l₂).Nodup) (hz : z ≠ x) :
    prevIn (l₁ ++ l₂) z =
      if l₂.head? = some z then l₁.getLast? else prevIn (l₁ ++ x :: l₂) z := by
  induction l₁ with
  | nil =>
    have hnd : (x :: l₂).Nodup := h
    rw [List.nil_append, List.nil_append, prevIn_cons]
    by_cases hzl : l₂.head? = some z
    · rw [if_pos hzl]
      cases l₂ with
      | nil => simp at hzl
      | cons c l₂ =>
        obtain rfl := Option.some.inj (List.head?_cons.symm.trans hzl)
        exact prevIn_of_notMem_tail (List.nodup_cons.mp (List.nodup_cons.mp hnd).2).1
    · rw [if_neg hzl, if_neg hzl]
  | cons a l₁ ih =>
    rw [List.cons_append, List.nodup_cons] at h
    rw [List.cons_append, List.cons_append, prevIn_cons, prevIn_cons, ih h.2]
    cases l₁ with
    | nil =>
      by_cases hzl : l₂.head? = some z
      · simp [hzl]
      · simp [hzl, Ne.symm hz]
    | cons b l₁ =>
      have hlast : (a :: b :: l₁).getLast? = (b :: l₁).getLast? := List.getLast?_cons_cons
      by_cases hzb : b = z
      · -- `z` directly follows `a`, so it is not the head of `l₂`
        have hzl : l₂.head? ≠ some z := by
          intro hl
          have hb := (List.nodup_cons.mp h.2).1
          exact hb (hzb ▸ List.mem_append_right _
            (List.mem_cons_of_mem _ (List.mem_of_mem_head? hl)))
        simp [hzb, hzl]
      · simp [hzb, hlast]

end Remove

/-! ## Renaming -/

section Rename

variable {f : α → β} (hf : Function.Injective f)

include hf

theorem nextIn_map (l : List α) (x : α) : nextIn (l.map f) (f x) = (nextIn l x).map f := by
  induction l with
  | nil => rfl
  | cons a l ih =>
    rw [List.map_cons, nextIn_cons, nextIn_cons, ih, List.head?_map]
    by_cases hxa : x = a
    · simp [hxa]
    · simp [hxa, hf.ne hxa]

theorem prevIn_map (l : List α) (x : α) : prevIn (l.map f) (f x) = (prevIn l x).map f := by
  induction l with
  | nil => rfl
  | cons a l ih =>
    rw [List.map_cons, prevIn_cons, prevIn_cons, ih, List.head?_map]
    by_cases hx : l.head? = some x
    · simp [hx]
    · have hfx : l.head?.map f ≠ some (f x) := by
        rw [Ne, Option.map_eq_some_iff]
        rintro ⟨a, ha, haf⟩
        exact hx (ha.trans (congrArg some (hf haf)))
      simp [hx, hfx]

end Rename

end Doost.Neighbours
