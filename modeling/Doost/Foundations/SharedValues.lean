import Mathlib.Data.Set.Card
import Mathlib.Logic.Function.Basic

/-!
# Objects that share immutable values

An object is absent, holds nothing, or holds one of the values that are alive. Several objects can
hold one value, and a value dies with its last holder. `SharedValues` is the state of such a
system, `Op` lists what can happen to it, and `apply` says what it then is. The lemmas say what an
operation keeps: `Live` (the values alive are the values held), the holdings of the objects it
does not name (`holder_apply_of_notMem`), and every value (`value_apply`).
-/

namespace Doost

/-- What every object holds (`some none` for nothing), and the values. -/
@[ext]
structure SharedValues (ι β τ : Type*) where
  holder : ι → Option (Option β)
  value : β → Option τ

namespace SharedValues

variable {ι β τ : Type*}

/-- Some object holds the value `b`. -/
def Held (s : SharedValues ι β τ) (b : β) : Prop := ∃ x, s.holder x = some (some b)

/-- The objects that hold the value `b`. -/
def holders (s : SharedValues ι β τ) (b : β) : Set ι := {x | s.holder x = some (some b)}

/-- The values alive are the values held. -/
def Live (s : SharedValues ι β τ) : Prop := ∀ b, (s.value b).isSome ↔ s.Held b

open Classical in
/-- Values that nobody holds are dropped. -/
noncomputable def collect (s : SharedValues ι β τ) : SharedValues ι β τ :=
  { s with value := fun b => if s.Held b then s.value b else none }

/-- What can happen to objects `x`, `y` of type `ι`. -/
inductive Op (ι β τ : Type*) where
  /-- Nothing. -/
  | skip
  /-- An object `x` that holds nothing appears. -/
  | create (x : ι)
  /-- The object `x` disappears. -/
  | destroy (x : ι)
  /-- `x` holds nothing any more. -/
  | clear (x : ι)
  /-- `x` holds the new value `v`, which is called `b`. -/
  | store (x : ι) (b : β) (v : τ)
  /-- `x` holds what `y` holds. -/
  | share (x y : ι)
  /-- `x` holds what `y` held, and another object `y` holds nothing any more. -/
  | transfer (x y : ι)
  /-- `x` and `y` exchange what they hold. -/
  | exchange (x y : ι)

/-- The objects that an operation names. -/
def Op.targets : Op ι β τ → List ι
  | .skip => []
  | .create x | .destroy x | .clear x | .store x _ _ | .share x _ => [x]
  | .transfer x y | .exchange x y => [x, y]

/-- The operation makes a new value. -/
def Op.isStore : Op ι β τ → Bool
  | .store _ _ _ => true
  | _ => false

/-- An operation does not reuse the name of a value alive. -/
def Op.Fresh (s : SharedValues ι β τ) : Op ι β τ → Prop
  | .store _ b _ => s.value b = none
  | _ => True

variable [DecidableEq ι] [DecidableEq β]

/-- The state after an operation, before the values that nobody holds are dropped. -/
def change (s : SharedValues ι β τ) : Op ι β τ → SharedValues ι β τ
  | .skip => s
  | .create x => { s with holder := Function.update s.holder x (some none) }
  | .destroy x => { s with holder := Function.update s.holder x none }
  | .clear x => { s with holder := Function.update s.holder x (some none) }
  | .store x b v =>
    ⟨Function.update s.holder x (some (some b)), Function.update s.value b (some v)⟩
  | .share x y => { s with holder := Function.update s.holder x (s.holder y) }
  | .transfer x y =>
    if x = y then s
    else { s with
      holder := Function.update (Function.update s.holder x (s.holder y)) y (some none) }
  | .exchange x y =>
    { s with holder := Function.update (Function.update s.holder x (s.holder y)) y (s.holder x) }

/-- The state after an operation. -/
noncomputable def apply (s : SharedValues ι β τ) (op : Op ι β τ) : SharedValues ι β τ :=
  (s.change op).collect

variable {s s' : SharedValues ι β τ}

/-! ## Dropping values -/

section Collect

omit [DecidableEq ι] [DecidableEq β]

theorem value_collect_of_held {b : β} (hb : s.Held b) : s.collect.value b = s.value b :=
  if_pos hb

theorem value_collect_of_not_held {b : β} (hb : ¬s.Held b) : s.collect.value b = none :=
  if_neg hb

/-- A state without dead values is the collected form of every state that agrees with it on the
values held. -/
theorem eq_collect (hs : s.Live) (hholder : s.holder = s'.holder)
    (hvalue : ∀ b, s.Held b → s.value b = s'.value b) : s = s'.collect := by
  have hheld : ∀ b, s'.Held b ↔ s.Held b := fun b => by rw [Held, Held, hholder]
  refine SharedValues.ext hholder (funext fun b => ?_)
  by_cases hb : s.Held b
  · rw [value_collect_of_held ((hheld b).mpr hb), hvalue b hb]
  · rw [value_collect_of_not_held fun h => hb ((hheld b).mp h), ← Option.not_isSome_iff_eq_none,
      hs b]
    exact hb

end Collect

/-! ## What an operation keeps -/

theorem holder_apply_of_notMem {op : Op ι β τ} {z : ι} (hz : z ∉ op.targets) :
    (s.apply op).holder z = s.holder z := by
  change (s.change op).holder z = s.holder z
  cases op with
  | skip => rfl
  | create x | destroy x | clear x | store x b v | share x y =>
    exact Function.update_of_ne (fun h => hz (List.mem_singleton.mpr h)) ..
  | transfer x y =>
    simp only [Op.targets, List.mem_cons, List.not_mem_nil, or_false, not_or] at hz
    simp only [change]
    split
    · rfl
    · change Function.update _ y _ z = _
      rw [Function.update_of_ne hz.2, Function.update_of_ne hz.1]
  | exchange x y =>
    simp only [Op.targets, List.mem_cons, List.not_mem_nil, or_false, not_or] at hz
    change Function.update _ y _ z = _
    rw [Function.update_of_ne hz.2, Function.update_of_ne hz.1]

/-- Only `store` makes a value. -/
theorem value_change {op : Op ι β τ} (hop : op.isStore = false) :
    (s.change op).value = s.value := by
  cases op with
  | store x b v => cases hop
  | transfer x y =>
    simp only [change]
    split <;> rfl
  | _ => rfl

theorem value_change_of_isSome {op : Op ι β τ} {b : β} (hop : op.Fresh s)
    (hb : (s.value b).isSome) : (s.change op).value b = s.value b := by
  cases op with
  | store x c v =>
    have hbc : b ≠ c := by
      rintro rfl
      rw [hop] at hb
      exact Bool.false_ne_true hb
    exact Function.update_of_ne hbc ..
  | _ => exact congrFun (value_change rfl) b

/-- The value of an object that the operation does not name. -/
theorem value_apply {op : Op ι β τ} {z : ι} {b : β} (hs : s.Live) (hop : op.Fresh s)
    (hz : z ∉ op.targets) (hb : s.holder z = some (some b)) :
    (s.apply op).value b = s.value b := by
  have hheld : (s.change op).Held b := ⟨z, (holder_apply_of_notMem hz).trans hb⟩
  rw [apply, value_collect_of_held hheld, value_change_of_isSome hop ((hs b).mpr ⟨z, hb⟩)]

end SharedValues

end Doost
