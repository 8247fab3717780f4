import Mathlib.Data.List.Flatten

/-!
# Prefix codes

A function from values to lists is a `PrefixCode` if a value can be read off the front of any list
that starts with what is written for it. Such functions are injective, nothing that is written is a
proper prefix of anything else that is, and a list that is written value by value can be split in
one way only (`PrefixCode.flatMap_injective`).
-/

namespace Doost.PrefixCodes

variable {α β γ : Type*} {write : α → List γ} {write' : β → List γ} {a b : α} {xs ys : List α}

/-- What is written is read back, whatever follows. -/
def PrefixCode (write : α → List γ) : Prop :=
  ∀ a b rest rest', write a ++ rest = write b ++ rest' → a = b ∧ rest = rest'

namespace PrefixCode

theorem injective (hw : PrefixCode write) : Function.Injective write := by
  intro a b hab
  exact (hw a b [] [] (by rw [hab])).1

/-- Nothing that is written is a proper prefix of anything that is. -/
theorem eq_of_prefix (hw : PrefixCode write) (hab : write a <+: write b) : a = b := by
  obtain ⟨rest, hrest⟩ := hab
  exact (hw a b rest [] (by rw [hrest, List.append_nil])).1

/-- **A list written value by value is split in one way only.** -/
theorem flatMap_injective (hw : PrefixCode write) (hne : ∀ a, write a ≠ [])
    (hxy : xs.flatMap write = ys.flatMap write) : xs = ys := by
  induction xs generalizing ys with
  | nil =>
    cases ys with
    | nil => rfl
    | cons b ys =>
      rw [List.flatMap_nil, List.flatMap_cons, eq_comm, List.append_eq_nil_iff] at hxy
      exact absurd hxy.1 (hne b)
  | cons a xs ih =>
    cases ys with
    | nil =>
      rw [List.flatMap_nil, List.flatMap_cons, List.append_eq_nil_iff] at hxy
      exact absurd hxy.1 (hne a)
    | cons b ys =>
      rw [List.flatMap_cons, List.flatMap_cons] at hxy
      obtain ⟨rfl, hrest⟩ := hw a b _ _ hxy
      rw [ih hrest]

/-- Values that are followed by a mark with which none of them starts. -/
theorem terminated (hw : PrefixCode write) {mark : γ}
    (hmark : ∀ a rest, (write a ++ rest).head? ≠ some mark) :
    PrefixCode fun xs : List α => xs.flatMap write ++ [mark] := by
  intro xs ys rest rest' hxy
  induction xs generalizing ys with
  | nil =>
    cases ys with
    | nil => exact ⟨rfl, by simpa using hxy⟩
    | cons b ys =>
      have hhead := congrArg List.head? hxy
      simp only [List.flatMap_nil, List.flatMap_cons, List.append_assoc, List.nil_append,
        List.singleton_append, List.head?_cons] at hhead
      exact absurd hhead.symm (hmark b _)
  | cons a xs ih =>
    cases ys with
    | nil =>
      have hhead := congrArg List.head? hxy
      simp only [List.flatMap_nil, List.flatMap_cons, List.append_assoc, List.nil_append,
        List.singleton_append, List.head?_cons] at hhead
      exact absurd hhead (hmark a _)
    | cons b ys =>
      simp only [List.flatMap_cons, List.append_assoc] at hxy
      obtain ⟨rfl, hrest⟩ := hw a b _ _ hxy
      obtain ⟨rfl, hrest'⟩ := ih ys (by simpa only [List.append_assoc] using hrest)
      exact ⟨rfl, hrest'⟩

/-- One value written behind another. -/
theorem pair (hw : PrefixCode write) (hw' : PrefixCode write') :
    PrefixCode fun p : α × β => write p.1 ++ write' p.2 := by
  rintro ⟨a, b⟩ ⟨a', b'⟩ rest rest' heq
  simp only [List.append_assoc] at heq
  obtain ⟨rfl, heq'⟩ := hw a a' _ _ heq
  obtain ⟨rfl, hrest⟩ := hw' b b' _ _ heq'
  exact ⟨rfl, hrest⟩

/-- A constant text in front. -/
theorem behind (hw : PrefixCode write) (front : List γ) :
    PrefixCode fun a => front ++ write a := by
  intro a b rest rest' heq
  rw [List.append_assoc, List.append_assoc, List.append_cancel_left_eq] at heq
  exact hw a b rest rest' heq

/-- A constant text at the end. -/
theorem before (hw : PrefixCode write) (back : List γ) :
    PrefixCode fun a => write a ++ back := by
  intro a b rest rest' heq
  rw [List.append_assoc, List.append_assoc] at heq
  obtain ⟨rfl, hrest⟩ := hw a b _ _ heq
  exact ⟨rfl, List.append_cancel_left hrest⟩

/-- A text for no value that starts differently from all values. -/
theorem option (hw : PrefixCode write) {null : List γ}
    (hnull : ∀ a rest rest', null ++ rest ≠ write a ++ rest') :
    PrefixCode fun o : Option α => o.elim null write := by
  intro o o' rest rest' heq
  cases o with
  | none =>
    cases o' with
    | none => exact ⟨rfl, List.append_cancel_left heq⟩
    | some b => exact absurd heq (hnull b rest rest')
  | some a =>
    cases o' with
    | none => exact absurd heq.symm (hnull a rest' rest)
    | some b =>
      obtain ⟨rfl, hrest⟩ := hw a b rest rest' heq
      exact ⟨rfl, hrest⟩

end PrefixCode

end Doost.PrefixCodes
