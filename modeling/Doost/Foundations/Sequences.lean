import Mathlib.Data.List.Basic
import Mathlib.Logic.Function.Basic

/-!
# Finite sequences under names

A state gives some names a finite sequence. `Op` lists what can happen to it (a sequence appears,
is copied or moved, gains or loses its first element), and `apply` says what it then is. Names that
an operation does not target keep their sequence (`apply_of_notMem`), so that a copy and its source
go separate ways.
-/

namespace Doost

/-- The sequences under the names in use. -/
abbrev Sequences (ι α : Type*) := ι → Option (List α)

namespace Sequences

variable {ι α : Type*}

/-- What a new element is made from: a value, or the element `n` of the sequence `i`, which may be
moved from. -/
inductive Argument (ι α : Type*) where
  | value (v : α)
  | element (i : ι) (n : ℕ)
  | moved (i : ι) (n : ℕ)

inductive Op (ι α : Type*) where
  /-- An empty sequence appears under `i`. -/
  | new (i : ι)
  /-- `i` gets the sequence of `j`. -/
  | copy (i j : ι)
  /-- `i` gets the sequence of another name `j`, which is empty then. -/
  | move (i j : ι)
  | push (i : ι) (argument : Argument ι α)
  | pop (i : ι)
  | clear (i : ι)
  | remove (i : ι)

/-- The value of the new element. -/
def Argument.read (s : Sequences ι α) : Argument ι α → Option α
  | .value v => some v
  | .element i n => (s i).bind fun l => l[n]?
  | .moved i n => (s i).bind fun l => l[n]?

/-- The names whose sequences an operation may change. -/
def Op.targets : Op ι α → List ι
  | .new i => [i]
  | .copy i _ => [i]
  | .move i j => [i, j]
  | .push i (.moved j _) => [i, j]
  | .push i _ => [i]
  | .pop i => [i]
  | .clear i => [i]
  | .remove i => [i]

variable [DecidableEq ι]

/-- What making the new element leaves. -/
def Argument.leave (movedFrom : α → α) (s : Sequences ι α) : Argument ι α → Sequences ι α
  | .value _ => s
  | .element _ _ => s
  | .moved i n => Function.update s i ((s i).map fun l => l.modify n movedFrom)

def apply (movedFrom : α → α) (s : Sequences ι α) : Op ι α → Sequences ι α
  | .new i => Function.update s i (some [])
  | .copy i j => Function.update s i (s j)
  | .move i j =>
    if i = j then s else Function.update (Function.update s i (s j)) j (some [])
  | .push i argument =>
    match argument.read s with
    | some v =>
      Function.update (argument.leave movedFrom s) i
        ((argument.leave movedFrom s i).map fun l => v :: l)
    | none => s
  | .pop i => Function.update s i ((s i).map List.tail)
  | .clear i => Function.update s i (some [])
  | .remove i => Function.update s i none

omit [DecidableEq ι] in
theorem modify_middle (l l' : List α) (v : α) (f : α → α) :
    (l ++ v :: l').modify l.length f = l ++ f v :: l' := by
  induction l with
  | nil => rfl
  | cons w l ih => rw [List.cons_append, List.length_cons, List.modify_succ_cons, ih,
      List.cons_append]

variable {movedFrom : α → α} {s : Sequences ι α}

theorem Argument.leave_of_notMem {argument : Argument ι α} {i k : ι}
    (hk : k ∉ (Op.push i argument).targets) : argument.leave movedFrom s k = s k := by
  cases argument with
  | value v | element j n => rfl
  | moved j n =>
    have hkj : k ≠ j := fun h => hk (h ▸ by simp [Op.targets])
    exact Function.update_of_ne hkj ..

/-- **Names that are no targets keep their sequence.** -/
theorem apply_of_notMem {op : Op ι α} {k : ι} (hk : k ∉ op.targets) :
    s.apply movedFrom op k = s k := by
  cases op with
  | push i argument =>
    have hki : k ≠ i := by
      rintro rfl
      exact hk (by cases argument <;> exact List.mem_cons_self)
    cases hv : argument.read s with
    | some v => simp only [apply, hv, Function.update_of_ne hki, Argument.leave_of_notMem hk]
    | none => simp only [apply, hv]
  | move i j =>
    simp only [Op.targets, List.mem_cons, List.not_mem_nil, or_false, not_or] at hk
    rw [apply]
    split
    · rfl
    · rw [Function.update_of_ne hk.2, Function.update_of_ne hk.1]
  | new i | copy i j | pop i | clear i | remove i =>
    exact Function.update_of_ne (List.ne_of_not_mem_cons hk) ..

end Sequences

end Doost
