import Doost.Foundations.SharedValues

/-!
# Objects that come and go

A program part starts in a state `s₀` of shared values, makes objects of its own, shares values
between them and destroys them. `Extends s₀ l s` says that `s` is `s₀` with the objects of `l`
besides: each holds its value, and nothing of `s₀` has changed. Every operation on such objects
changes the list `l` only, so that a part that has destroyed its objects has left the state as it
was (`Extends.eq_of_nil`).
-/

namespace Doost.SharedValues

variable {ι β τ : Type*}

/-- An object, the value that it holds, and what this value is. -/
structure Holding (ι β τ : Type*) where
  object : ι
  name : β
  value : τ
deriving DecidableEq

/-- The state `s` is `s₀` with the objects of `l`. They and their values are new to `s₀`. -/
structure Extends (s₀ : SharedValues ι β τ) (l : List (Holding ι β τ)) (s : SharedValues ι β τ) :
    Prop where
  nodup : (l.map Holding.object).Nodup
  absent : ∀ p ∈ l, s₀.holder p.object = none
  fresh : ∀ p ∈ l, s₀.value p.name = none
  holds : ∀ p ∈ l, s.holder p.object = some (some p.name)
  reads : ∀ p ∈ l, s.value p.name = some p.value
  others : ∀ z, z ∉ l.map Holding.object → s.holder z = s₀.holder z
  kept : ∀ b, b ∉ l.map Holding.name → s.value b = s₀.value b

namespace Extends

variable {s₀ s s' : SharedValues ι β τ} {l l' : List (Holding ι β τ)} {p q : Holding ι β τ}
  {x z : ι} {b : β} {v : τ}

theorem nil (s : SharedValues ι β τ) : Extends s [] s where
  nodup := List.nodup_nil
  absent _ hp := absurd hp List.not_mem_nil
  fresh _ hp := absurd hp List.not_mem_nil
  holds _ hp := absurd hp List.not_mem_nil
  reads _ hp := absurd hp List.not_mem_nil
  others _ _ := rfl
  kept _ _ := rfl

/-- **Without objects of its own a part has changed nothing.** -/
theorem eq_of_nil (h : Extends s₀ [] s) : s = s₀ :=
  SharedValues.ext (funext fun z => h.others z List.not_mem_nil)
    (funext fun b => h.kept b List.not_mem_nil)

/-- The order of the objects does not matter. -/
theorem perm (h : Extends s₀ l s) (hl : l.Perm l') : Extends s₀ l' s where
  nodup := (hl.map Holding.object).nodup_iff.mp h.nodup
  absent p hp := h.absent p (hl.mem_iff.mpr hp)
  fresh p hp := h.fresh p (hl.mem_iff.mpr hp)
  holds p hp := h.holds p (hl.mem_iff.mpr hp)
  reads p hp := h.reads p (hl.mem_iff.mpr hp)
  others z hz := h.others z fun hmem => hz ((hl.map Holding.object).mem_iff.mp hmem)
  kept b hb := h.kept b fun hmem => hb ((hl.map Holding.name).mem_iff.mp hmem)

/-- An object that holds a value of the list is an object of the list. -/
theorem exists_of_holder (hs₀ : s₀.Live) (h : Extends s₀ l s) (hp : p ∈ l)
    (hz : s.holder z = some (some p.name)) : ∃ q ∈ l, q.object = z ∧ q.name = p.name := by
  by_cases hmem : z ∈ l.map Holding.object
  · obtain ⟨q, hq, rfl⟩ := List.mem_map.mp hmem
    have hname := (h.holds q hq).symm.trans hz
    rw [Option.some.injEq, Option.some.injEq] at hname
    exact ⟨q, hq, rfl, hname⟩
  · rw [h.others z hmem] at hz
    have hsome := (hs₀ p.name).mpr ⟨z, hz⟩
    rw [h.fresh p hp] at hsome
    cases hsome

/-- The holders of a value are those that the list names. -/
theorem holders_eq (hs₀ : s₀.Live) (h : Extends s₀ l s) (hp : p ∈ l) :
    s.holders p.name = {z | ∃ q ∈ l, q.object = z ∧ q.name = p.name} := by
  ext z
  refine ⟨fun hz => exists_of_holder hs₀ h hp hz, ?_⟩
  rintro ⟨q, hq, rfl, hname⟩
  exact hname ▸ h.holds q hq

/-- A state that agrees with `s₀` and `l` on the values held extends `s₀` when the other values are
dropped. -/
theorem collect (hs₀ : s₀.Live) (nodup : (l.map Holding.object).Nodup)
    (absent : ∀ p ∈ l, s₀.holder p.object = none) (fresh : ∀ p ∈ l, s₀.value p.name = none)
    (holds : ∀ p ∈ l, s.holder p.object = some (some p.name))
    (reads : ∀ p ∈ l, s.value p.name = some p.value)
    (others : ∀ z, z ∉ l.map Holding.object → s.holder z = s₀.holder z)
    (kept : ∀ b, b ∉ l.map Holding.name → s.Held b → s.value b = s₀.value b) :
    Extends s₀ l s.collect where
  nodup := nodup
  absent := absent
  fresh := fresh
  holds := holds
  reads p hp := (value_collect_of_held ⟨p.object, holds p hp⟩).trans (reads p hp)
  others := others
  kept b hb := by
    by_cases hheld : s.Held b
    · rw [value_collect_of_held hheld, kept b hb hheld]
    · rw [value_collect_of_not_held hheld, eq_comm, ← Option.not_isSome_iff_eq_none, hs₀ b]
      rintro ⟨z, hz⟩
      refine hheld ⟨z, (others z fun hmem => ?_).trans hz⟩
      obtain ⟨p, hp, rfl⟩ := List.mem_map.mp hmem
      rw [absent p hp] at hz
      cases hz

variable [DecidableEq ι] [DecidableEq β]

/-- **A new object with a new value.** -/
theorem store (hs₀ : s₀.Live) (h : Extends s₀ l s) (hx : s.holder x = none)
    (hb : s.value b = none) : Extends s₀ (⟨x, b, v⟩ :: l) (s.apply (.store x b v)) := by
  have hx' : ∀ p ∈ l, p.object ≠ x := by
    rintro p hp rfl
    cases (h.holds p hp).symm.trans hx
  have hb' : ∀ p ∈ l, p.name ≠ b := by
    rintro p hp rfl
    cases (h.reads p hp).symm.trans hb
  have hnotMem : x ∉ l.map Holding.object := fun hmem => by
    obtain ⟨p, hp, heq⟩ := List.mem_map.mp hmem
    exact hx' p hp heq
  have hnotMem' : b ∉ l.map Holding.name := fun hmem => by
    obtain ⟨p, hp, heq⟩ := List.mem_map.mp hmem
    exact hb' p hp heq
  refine collect hs₀ (List.nodup_cons.mpr ⟨hnotMem, h.nodup⟩) ?_ ?_ ?_ ?_ (fun z hz => ?_)
    fun c hc _ => ?_
  · exact List.forall_mem_cons.mpr ⟨(h.others x hnotMem).symm.trans hx, h.absent⟩
  · exact List.forall_mem_cons.mpr ⟨(h.kept b hnotMem').symm.trans hb, h.fresh⟩
  · refine List.forall_mem_cons.mpr ⟨Function.update_self .., fun p hp => ?_⟩
    exact (Function.update_of_ne (hx' p hp) ..).trans (h.holds p hp)
  · refine List.forall_mem_cons.mpr ⟨Function.update_self .., fun p hp => ?_⟩
    exact (Function.update_of_ne (hb' p hp) ..).trans (h.reads p hp)
  · rw [List.map_cons, List.mem_cons, not_or] at hz
    exact (Function.update_of_ne hz.1 ..).trans (h.others z hz.2)
  · rw [List.map_cons, List.mem_cons, not_or] at hc
    exact (Function.update_of_ne hc.1 ..).trans (h.kept c hc.2)

/-- **A new object that shares a value of the list.** -/
theorem share (hs₀ : s₀.Live) (h : Extends s₀ l s) (hp : p ∈ l) (hx : s.holder x = none) :
    Extends s₀ (⟨x, p.name, p.value⟩ :: l) (s.apply (.share x p.object)) := by
  have hx' : ∀ q ∈ l, q.object ≠ x := by
    rintro q hq rfl
    cases (h.holds q hq).symm.trans hx
  have hnotMem : x ∉ l.map Holding.object := fun hmem => by
    obtain ⟨q, hq, heq⟩ := List.mem_map.mp hmem
    exact hx' q hq heq
  refine collect hs₀ (List.nodup_cons.mpr ⟨hnotMem, h.nodup⟩) ?_ ?_ ?_ ?_ (fun z hz => ?_)
    fun c hc _ => ?_
  · exact List.forall_mem_cons.mpr ⟨(h.others x hnotMem).symm.trans hx, h.absent⟩
  · exact List.forall_mem_cons.mpr ⟨h.fresh p hp, h.fresh⟩
  · refine List.forall_mem_cons.mpr ⟨(Function.update_self ..).trans (h.holds p hp), fun q hq => ?_⟩
    exact (Function.update_of_ne (hx' q hq) ..).trans (h.holds q hq)
  · exact List.forall_mem_cons.mpr ⟨h.reads p hp, h.reads⟩
  · rw [List.map_cons, List.mem_cons, not_or] at hz
    exact (Function.update_of_ne hz.1 ..).trans (h.others z hz.2)
  · rw [List.map_cons, List.mem_cons, not_or] at hc
    exact h.kept c hc.2

/-- **An object of the list goes.** Its value goes with it when it was the last holder. -/
theorem destroy (hs₀ : s₀.Live) (h : Extends s₀ l s) (hx : x ∈ l.map Holding.object) :
    Extends s₀ (l.filter fun p => p.object ≠ x) (s.apply (.destroy x)) := by
  have hmem : ∀ p ∈ l.filter fun p => p.object ≠ x, p ∈ l ∧ p.object ≠ x := by
    intro p hp
    rwa [List.mem_filter, decide_eq_true_iff] at hp
  refine collect hs₀ (h.nodup.sublist (List.filter_sublist.map _))
    (fun p hp => h.absent p (hmem p hp).1) (fun p hp => h.fresh p (hmem p hp).1)
    (fun p hp => ?_) (fun p hp => h.reads p (hmem p hp).1) (fun z hz => ?_) fun c hc hheld => ?_
  · exact (Function.update_of_ne (hmem p hp).2 ..).trans (h.holds p (hmem p hp).1)
  · by_cases hzx : z = x
    · subst hzx
      obtain ⟨p, hp, rfl⟩ := List.mem_map.mp hx
      exact (Function.update_self ..).trans (h.absent p hp).symm
    · refine (Function.update_of_ne hzx ..).trans (h.others z fun hmem => hz ?_)
      obtain ⟨p, hp, rfl⟩ := List.mem_map.mp hmem
      exact List.mem_map_of_mem (List.mem_filter.mpr ⟨hp, decide_eq_true hzx⟩)
  · refine h.kept c fun hmem => hc ?_
    -- some object holds `c`, so another one of the list
    obtain ⟨p, hp, rfl⟩ := List.mem_map.mp hmem
    obtain ⟨z, hz⟩ := hheld
    change Function.update s.holder x none z = _ at hz
    have hzx : z ≠ x := by
      rintro rfl
      rw [Function.update_self] at hz
      cases hz
    have hz' : s.holder z = some (some p.name) := (Function.update_of_ne hzx ..).symm.trans hz
    obtain ⟨q, hq, rfl, hname⟩ := exists_of_holder hs₀ h hp hz'
    exact List.mem_map.mpr ⟨q, List.mem_filter.mpr ⟨hq, decide_eq_true hzx⟩, hname⟩

omit [DecidableEq ι] [DecidableEq β]

/-- What moves within a list stays in it. -/
theorem mem_map_of_fix {σ : Equiv.Perm ι} {xs : List ι} (hfix : ∀ z, z ∉ xs → σ z = z) :
    z ∈ xs.map σ ↔ z ∈ xs := by
  constructor
  · rintro hz
    obtain ⟨y, hy, rfl⟩ := List.mem_map.mp hz
    by_contra hnot
    rw [σ.injective (hfix (σ y) hnot)] at hnot
    exact hnot hy
  · intro hz
    refine List.mem_map.mpr ⟨σ.symm z, ?_, σ.apply_symm_apply z⟩
    by_contra hnot
    have heq := hfix _ hnot
    rw [σ.apply_symm_apply] at heq
    exact hnot (heq ▸ hz)

theorem map_object_rename (σ : Equiv.Perm ι) (l : List (Holding ι β τ)) :
    (l.map fun p => (⟨σ p.object, p.name, p.value⟩ : Holding ι β τ)).map Holding.object =
      (l.map Holding.object).map σ := by
  rw [List.map_map, List.map_map]
  rfl

/-- **The objects of the list change places.** -/
theorem rename {σ : Equiv.Perm ι} (h : Extends s₀ l s)
    (hfix : ∀ z, z ∉ l.map Holding.object → σ z = z)
    (hholder : ∀ z, s'.holder (σ z) = s.holder z) (hvalue : s'.value = s.value) :
    Extends s₀ (l.map fun p => ⟨σ p.object, p.name, p.value⟩) s' := by
  have hname : (l.map fun p => (⟨σ p.object, p.name, p.value⟩ : Holding ι β τ)).map
      Holding.name = l.map Holding.name := by
    rw [List.map_map]
    rfl
  refine ⟨?_, List.forall_mem_map.mpr fun p hp => ?_, List.forall_mem_map.mpr h.fresh, ?_, ?_,
    fun z hz => ?_, fun c hc => ?_⟩
  · rw [map_object_rename]
    exact h.nodup.map σ.injective
  · have hmem := (mem_map_of_fix hfix).mp
      (List.mem_map_of_mem (f := σ) (List.mem_map_of_mem (f := Holding.object) hp))
    obtain ⟨q, hq, heq⟩ := List.mem_map.mp hmem
    exact heq ▸ h.absent q hq
  · exact List.forall_mem_map.mpr fun p hp => (hholder p.object).trans (h.holds p hp)
  · rw [hvalue]
    exact List.forall_mem_map.mpr h.reads
  · rw [map_object_rename, mem_map_of_fix hfix] at hz
    have hstays := hholder z
    rw [hfix z hz] at hstays
    exact hstays.trans (h.others z hz)
  · rw [hname] at hc
    rw [hvalue]
    exact h.kept c hc

end Extends

end Doost.SharedValues
