import Doost.Strings.Ownership

/-!
# Renaming the objects of a heap

`Heap.rename` gives every `String` object another address and redirects the links to it.
`Heap.Linked` is what the links satisfy at every moment at which no operation is under way:
neighbours point at each other, and a block points at its owner without a previous one. On such a
heap `swap` of owners of different blocks is the renaming that exchanges them (`Linked.swap_eq`),
and so is `moveFrom` into a null `String` (`Linked.moveFrom_eq`).
-/

namespace Doost.Strings

/-- The object whose neighbours have got the addresses that `σ` gives them. -/
def StringObject.rename (σ : Equiv.Perm ObjectId) (s : StringObject) : StringObject :=
  ⟨s.block, s.previous.map σ, s.next.map σ⟩

/-- The block whose first owner has got the address that `σ` gives it. -/
def Block.rename (σ : Equiv.Perm ObjectId) (k : Block) : Block := ⟨k.first.map σ, k.data⟩

/-- Replacing a pointer to `y` by one to `x` and the other way round. -/
theorem map_swap_eq_ite {x y : ObjectId} (o : Option ObjectId) :
    o.map (Equiv.swap x y) =
      if o = some y then some x else if o = some x then some y else o := by
  cases o with
  | none => simp
  | some w =>
    by_cases hwy : w = y
    · simp [hwy]
    · by_cases hwx : w = x
      · subst hwx
        simp [hwy]
      · simp [hwx, hwy, Equiv.swap_apply_of_ne_of_ne hwx hwy]

namespace StringObject

variable {σ τ : Equiv.Perm ObjectId} {s : StringObject} {x y : ObjectId}

@[simp] theorem rename_null : StringObject.null.rename σ = .null := rfl

theorem rename_rename : (s.rename σ).rename τ = s.rename (σ.trans τ) := by
  simp only [rename, Option.map_map, Equiv.coe_trans]

theorem rename_refl : s.rename (Equiv.refl ObjectId) = s := by
  simp only [rename, Equiv.coe_refl, Option.map_id, id]

/-- An object that is next to neither `x` nor `y` takes its links along. -/
theorem rename_swap_of_ne (hpx : s.previous ≠ some x) (hpy : s.previous ≠ some y)
    (hnx : s.next ≠ some x) (hny : s.next ≠ some y) : s.rename (Equiv.swap x y) = s := by
  simp only [rename, map_swap_eq_ite, if_neg hpx, if_neg hpy, if_neg hnx, if_neg hny]

end StringObject

namespace Block

variable {σ τ : Equiv.Perm ObjectId} {k : Block}

theorem rename_rename : (k.rename σ).rename τ = k.rename (σ.trans τ) := by
  simp only [rename, Option.map_map, Equiv.coe_trans]

theorem rename_refl : k.rename (Equiv.refl ObjectId) = k := by
  simp only [rename, Equiv.coe_refl, Option.map_id, id]

end Block

namespace Heap

/-- The heap whose object at `x` has moved to `σ x`. -/
def rename (h : Heap) (σ : Equiv.Perm ObjectId) : Heap :=
  ⟨fun x => (h.strings (σ.symm x)).map (StringObject.rename σ),
    fun b => (h.blocks b).map (Block.rename σ), h.trace⟩

variable {h : Heap} {σ τ : Equiv.Perm ObjectId} {x y : ObjectId} {s s' : StringObject}

theorem rename_strings (h : Heap) (σ : Equiv.Perm ObjectId) (x : ObjectId) :
    (h.rename σ).strings x = (h.strings (σ.symm x)).map (StringObject.rename σ) := rfl

theorem rename_blocks (h : Heap) (σ : Equiv.Perm ObjectId) (b : UIntPtr) :
    (h.rename σ).blocks b = (h.blocks b).map (Block.rename σ) := rfl

theorem rename_strings_apply (x : ObjectId) :
    (h.rename σ).strings (σ x) = (h.strings x).map (StringObject.rename σ) := by
  rw [rename_strings, Equiv.symm_apply_apply]

theorem of_strings_rename (hx : (h.rename σ).strings x = some s) :
    ∃ x₀ s₀, x = σ x₀ ∧ h.strings x₀ = some s₀ ∧ s = s₀.rename σ := by
  obtain ⟨s₀, hs₀, rfl⟩ := Option.map_eq_some_iff.mp hx
  exact ⟨σ.symm x, s₀, (σ.apply_symm_apply x).symm, hs₀, rfl⟩

theorem rename_rename : (h.rename σ).rename τ = h.rename (σ.trans τ) := by
  refine Heap.ext ?_ ?_ rfl
  · funext x
    change ((h.strings (σ.symm (τ.symm x))).map (StringObject.rename σ)).map
        (StringObject.rename τ) =
      (h.strings (σ.symm (τ.symm x))).map (StringObject.rename (σ.trans τ))
    cases h.strings (σ.symm (τ.symm x)) with
    | none => rfl
    | some s => exact congrArg some StringObject.rename_rename
  · funext b
    change ((h.blocks b).map (Block.rename σ)).map (Block.rename τ) =
      (h.blocks b).map (Block.rename (σ.trans τ))
    cases h.blocks b with
    | none => rfl
    | some k => exact congrArg some Block.rename_rename

theorem rename_refl : h.rename (Equiv.refl ObjectId) = h := by
  refine Heap.ext ?_ ?_ rfl
  · funext x
    change (h.strings x).map (StringObject.rename (Equiv.refl _)) = h.strings x
    cases h.strings x with
    | none => rfl
    | some s => exact congrArg some StringObject.rename_refl
  · funext b
    change (h.blocks b).map (Block.rename (Equiv.refl _)) = h.blocks b
    cases h.blocks b with
    | none => rfl
    | some k => exact congrArg some Block.rename_refl

/-- Exchanging two objects twice restores the heap. -/
theorem rename_swap_swap (x y : ObjectId) :
    (h.rename (Equiv.swap x y)).rename (Equiv.swap x y) = h := by
  rw [rename_rename, Equiv.swap_swap, rename_refl]

/-! ## Linked heaps -/

/-- The links between the objects and from the blocks. -/
structure Linked (h : Heap) : Prop where
  null : ∀ x s, h.strings x = some s → s.block.pointer = 0 → s = .null
  live : ∀ x s, h.strings x = some s → s.block.pointer ≠ 0 → (h.blocks s.block.pointer).isSome
  blocks_zero : h.blocks 0 = none
  first_mem : ∀ b k x, h.blocks b = some k → k.first = some x → (h.strings x).isSome
  next_iff : ∀ x s y s', h.strings x = some s → h.strings y = some s' →
    (s.next = some y ↔ s'.previous = some x)
  next_mem : ∀ x s y, h.strings x = some s → s.next = some y →
    y ≠ x ∧ ∃ s', h.strings y = some s' ∧ s'.block.pointer = s.block.pointer
  previous_mem : ∀ x s y, h.strings x = some s → s.previous = some y →
    y ≠ x ∧ ∃ s', h.strings y = some s' ∧ s'.block.pointer = s.block.pointer
  first_iff : ∀ b k x s, h.blocks b = some k → h.strings x = some s →
    (k.first = some x ↔ s.previous = none ∧ s.block.pointer = b)

namespace Linked

/-- An object is next to itself in no chain, and next to `y` only in that of `y`. -/
theorem rename_swap_left (hh : h.Linked) (hx : h.strings x = some s)
    (hy : h.strings y = some s') (hne : s.block.pointer ≠ s'.block.pointer) :
    s.rename (Equiv.swap x y) = s := by
  have hprevious : ∀ z, z = x ∨ z = y → s.previous ≠ some z := by
    rintro z hz hlink
    obtain ⟨hzx, s'', hs'', hblock⟩ := hh.previous_mem x s z hx hlink
    obtain rfl := hz.resolve_left hzx
    obtain rfl := Option.some.inj (hy.symm.trans hs'')
    exact hne hblock.symm
  have hnext : ∀ z, z = x ∨ z = y → s.next ≠ some z := by
    rintro z hz hlink
    obtain ⟨hzx, s'', hs'', hblock⟩ := hh.next_mem x s z hx hlink
    obtain rfl := hz.resolve_left hzx
    obtain rfl := Option.some.inj (hy.symm.trans hs'')
    exact hne hblock.symm
  exact StringObject.rename_swap_of_ne (hprevious x (.inl rfl)) (hprevious y (.inr rfl))
    (hnext x (.inl rfl)) (hnext y (.inr rfl))

theorem rename_swap_right (hh : h.Linked) (hx : h.strings x = some s)
    (hy : h.strings y = some s') (hne : s.block.pointer ≠ s'.block.pointer) :
    s'.rename (Equiv.swap x y) = s' := by
  rw [Equiv.swap_comm]
  exact hh.rename_swap_left hy hx hne.symm

/-- No link leads to or from a null object. -/
theorem rename_swap_null (hh : h.Linked) (hx : h.strings x = some .null)
    (hy : h.strings y = some s) : s.rename (Equiv.swap x y) = s := by
  by_cases hzero : s.block.pointer = 0
  · rw [hh.null y s hy hzero, StringObject.rename_null]
  · refine hh.rename_swap_right hx hy ?_
    rw [StringObject.null, TaggedBlockPointer.pointer_reset]
    exact Ne.symm hzero

/-- **A renaming keeps a heap linked.** -/
theorem rename (hh : h.Linked) (σ : Equiv.Perm ObjectId) : (h.rename σ).Linked where
  null := by
    intro x s hs hzero
    obtain ⟨x₀, s₀, rfl, hs₀, rfl⟩ := of_strings_rename hs
    rw [hh.null x₀ s₀ hs₀ hzero, StringObject.rename_null]
  live := by
    intro x s hs hne
    obtain ⟨x₀, s₀, rfl, hs₀, rfl⟩ := of_strings_rename hs
    rw [rename_blocks, Option.isSome_map]
    exact hh.live x₀ s₀ hs₀ hne
  blocks_zero := by rw [rename_blocks, hh.blocks_zero, Option.map_none]
  first_mem := by
    intro b k x hk hfirst
    obtain ⟨k₀, hk₀, rfl⟩ := Option.map_eq_some_iff.mp hk
    obtain ⟨x₀, hx₀, rfl⟩ := Option.map_eq_some_iff.mp hfirst
    rw [rename_strings_apply, Option.isSome_map]
    exact hh.first_mem b k₀ x₀ hk₀ hx₀
  next_iff := by
    intro x s y s' hs hs'
    obtain ⟨x₀, s₀, rfl, hs₀, rfl⟩ := of_strings_rename hs
    obtain ⟨y₀, s₁, rfl, hs₁, rfl⟩ := of_strings_rename hs'
    simp only [StringObject.rename, Option.map_eq_some_iff, σ.apply_eq_iff_eq, exists_eq_right]
    exact hh.next_iff x₀ s₀ y₀ s₁ hs₀ hs₁
  next_mem := by
    intro x s y hs hlink
    obtain ⟨x₀, s₀, rfl, hs₀, rfl⟩ := of_strings_rename hs
    obtain ⟨y₀, hy₀, rfl⟩ := Option.map_eq_some_iff.mp hlink
    obtain ⟨hne, s₁, hs₁, hblock⟩ := hh.next_mem x₀ s₀ y₀ hs₀ hy₀
    exact ⟨σ.injective.ne hne, s₁.rename σ, by rw [rename_strings_apply, hs₁, Option.map_some],
      hblock⟩
  previous_mem := by
    intro x s y hs hlink
    obtain ⟨x₀, s₀, rfl, hs₀, rfl⟩ := of_strings_rename hs
    obtain ⟨y₀, hy₀, rfl⟩ := Option.map_eq_some_iff.mp hlink
    obtain ⟨hne, s₁, hs₁, hblock⟩ := hh.previous_mem x₀ s₀ y₀ hs₀ hy₀
    exact ⟨σ.injective.ne hne, s₁.rename σ, by rw [rename_strings_apply, hs₁, Option.map_some],
      hblock⟩
  first_iff := by
    intro b k x s hk hs
    obtain ⟨k₀, hk₀, rfl⟩ := Option.map_eq_some_iff.mp hk
    obtain ⟨x₀, s₀, rfl, hs₀, rfl⟩ := of_strings_rename hs
    simp only [Block.rename, StringObject.rename, Option.map_eq_some_iff, σ.apply_eq_iff_eq,
      exists_eq_right, Option.map_eq_none_iff]
    exact hh.first_iff b k₀ x₀ s₀ hk₀ hs₀

/-- `replaceOwner` at the place of `x`, on a heap with the objects and blocks of `h`. -/
theorem replaceOwner_eq (hh : h.Linked) (hx : h.strings x = some s) {g : Heap}
    (hstrings : ∀ z, (g.strings z).isSome = (h.strings z).isSome)
    (hblocks : ∀ c, (g.blocks c).isSome = (h.blocks c).isSome) (r : ObjectId) :
    g.replaceOwner s.block.pointer s.previous s.next r = some (g.mapAll
      (fun z o => ⟨o.block, if s.next = some z then some r else o.previous,
        if s.previous = some z then some r else o.next⟩)
      fun c k => ⟨if s.previous = none ∧ c = s.block.pointer then some r else k.first,
        k.data⟩) := by
  by_cases hzero : s.block.pointer = 0
  · obtain rfl := hh.null x s hx hzero
    have hnone : g.blocks 0 = none := by
      rw [← Option.isNone_iff_eq_none, ← Option.not_isSome, hblocks, hh.blocks_zero]
      rfl
    simp only [replaceOwner, hzero, if_pos]
    refine congrArg some (Heap.ext ?_ ?_ rfl)
    · funext z
      simp [StringObject.null]
    · funext c
      by_cases hc : c = 0
      · simp only [mapAll_blocks, hc, hnone, Option.map_none]
      · simp only [mapAll_blocks, hc, and_false, if_false, Option.map_id']
  · have hlive : ((g.blocks s.block.pointer).isSome) := by
      rw [hblocks]
      exact hh.live x s hx hzero
    have hprevious : ∀ p, s.previous = some p → (g.strings p).isSome := by
      intro p hp
      obtain ⟨-, s', hs', -⟩ := hh.previous_mem x s p hx hp
      rw [hstrings, hs']
      rfl
    have hnext : ∀ n, s.next = some n → (g.strings n).isSome := by
      intro n hn
      obtain ⟨-, s', hs', -⟩ := hh.next_mem x s n hx hn
      rw [hstrings, hs']
      rfl
    simp only [replaceOwner, if_neg hzero, Option.bind_eq_bind]
    rw [setForward_eq hlive hprevious, Option.bind_some,
      modifyPointee_eq (by simpa using hnext), mapAll_mapAll]
    refine congrArg some (congrArg₂ g.mapAll ?_ ?_)
    · funext z o
      by_cases hz : s.next = some z <;> by_cases hz' : s.previous = some z <;> simp [hz, hz']
    · funext c k
      by_cases hc : s.previous = none ∧ c = s.block.pointer <;> simp [hc]

section

variable {f : ObjectId → StringObject → StringObject} {g : UIntPtr → Block → Block}

/-- Assignments that put `x` and `y` into each other's places exchange them. -/
theorem mapAll_eq_rename (hh : h.Linked) (hx : h.strings x = some s) (hy : h.strings y = some s')
    (hs : s.rename (Equiv.swap x y) = s) (hs' : s'.rename (Equiv.swap x y) = s')
    (hfx : f x s = s') (hfy : f y s' = s)
    (hf : ∀ z o, z ≠ x → z ≠ y → f z o = ⟨o.block,
      if s'.next = some z then some x else if s.next = some z then some y else o.previous,
      if s'.previous = some z then some x else if s.previous = some z then some y else o.next⟩)
    (hg : ∀ c k, c ≠ 0 → g c k = ⟨if s'.previous = none ∧ c = s'.block.pointer then some x
      else if s.previous = none ∧ c = s.block.pointer then some y else k.first, k.data⟩) :
    h.mapAll f g = h.rename (Equiv.swap x y) := by
  refine Heap.ext ?_ ?_ rfl
  · funext z
    rw [mapAll_strings, rename_strings, Equiv.symm_swap]
    by_cases hzx : z = x
    · rw [hzx, Equiv.swap_apply_left, hx, hy, Option.map_some, Option.map_some, hfx, hs']
    · by_cases hzy : z = y
      · rw [hzy, Equiv.swap_apply_right, hx, hy, Option.map_some, Option.map_some, hfy, hs]
      · rw [Equiv.swap_apply_of_ne_of_ne hzx hzy]
        rcases hz : h.strings z with - | o
        · rfl
        · rw [Option.map_some, Option.map_some, hf z o hzx hzy, StringObject.rename,
            map_swap_eq_ite, map_swap_eq_ite]
          simp only [hh.next_iff x s z o hx hz, hh.next_iff y s' z o hy hz,
            ← hh.next_iff z o x s hz hx, ← hh.next_iff z o y s' hz hy]
  · funext c
    rw [mapAll_blocks, rename_blocks]
    rcases hc : h.blocks c with - | k
    · rfl
    · have hc0 : c ≠ 0 := by
        rintro rfl
        cases hh.blocks_zero.symm.trans hc
      rw [Option.map_some, Option.map_some, hg c k hc0, Block.rename, map_swap_eq_ite]
      simp only [hh.first_iff c k x s hc hx, hh.first_iff c k y s' hc hy, eq_comm (a := c)]

end

/-- The null test before the call of `replaceOwner` repeats the one inside. -/
theorem replaceOwner_guarded {b : UIntPtr} (h : Heap) (p n : Option ObjectId) (r : ObjectId) :
    (if b = 0 then pure h else h.replaceOwner b p n r) = h.replaceOwner b p n r := by
  by_cases hb : b = 0 <;> simp only [replaceOwner, hb, if_true, if_false]

/-- **`swap` of owners of different blocks exchanges their identities.** -/
theorem swap_eq (hh : h.Linked) (hx : h.strings x = some s) (hy : h.strings y = some s')
    (hne : s.block.pointer ≠ s'.block.pointer) :
    h.swap x y = some (h.rename (Equiv.swap x y)) := by
  have hxy : x ≠ y := by
    rintro rfl
    exact hne (congrArg (fun o => o.block.pointer) (Option.some.inj (hx.symm.trans hy)))
  simp only [swap, if_neg hxy, hx, hy, Option.bind_eq_bind, Option.bind_some, if_neg hne]
  rw [hh.replaceOwner_eq hx (fun _ => rfl) (fun _ => rfl), Option.bind_some,
    hh.replaceOwner_eq hy (by simp) (by simp), Option.bind_some,
    modifyString_eq (by simp [hx]), Option.bind_some, modifyString_eq (by simp [hy])]
  simp only [mapAll_mapAll]
  refine congrArg some (hh.mapAll_eq_rename hx hy (hh.rename_swap_left hx hy hne)
    (hh.rename_swap_right hx hy hne) ?_ ?_ (fun z o hzx hzy => ?_) fun c k _ => ?_)
  · simp only [if_neg hxy, if_pos]
  · simp only [if_pos]
  · simp only [if_neg hzx, if_neg hzy]
  · rfl

theorem swap_of_eq (hx : h.strings x = some s) (hy : h.strings y = some s')
    (heq : s.block.pointer = s'.block.pointer) : h.swap x y = some h := by
  simp [swap, hx, hy, heq]

/-- **`move_from` into a null `String` exchanges the identities.** -/
theorem moveFrom_eq (hh : h.Linked) (hx : h.strings x = some .null) (hy : h.strings y = some s)
    (hxy : x ≠ y) : h.moveFrom x y = some (h.rename (Equiv.swap x y)) := by
  have hyx : y ≠ x := hxy.symm
  have hs := hh.rename_swap_null hx hy
  have hself : s.previous ≠ some y ∧ s.next ≠ some y :=
    ⟨fun hlink => (hh.previous_mem y s y hy hlink).1 rfl,
      fun hlink => (hh.next_mem y s y hy hlink).1 rfl⟩
  have hother : s.previous ≠ some x ∧ s.next ≠ some x := by
    constructor
    · intro hlink
      cases (hh.next_iff x _ y s hx hy).mpr hlink
    · intro hlink
      cases (hh.next_iff y s x _ hy hx).mp hlink
  simp only [moveFrom, modifyString_eq, mapAll_strings, Option.isSome_some, hx, hy,
    Option.map_some, Option.bind_eq_bind, Option.bind_some, mapAll_mapAll, if_neg hyx, if_neg hxy,
    if_pos]
  rw [replaceOwner_guarded, hh.replaceOwner_eq hy (by simp) (by simp), mapAll_mapAll]
  refine congrArg some (hh.mapAll_eq_rename hx hy StringObject.rename_null hs ?_ ?_
    (fun z o hzx hzy => ?_) fun c k hc => ?_)
  · simp only [if_pos, if_neg hxy, if_neg hother.1, if_neg hother.2]
  · simp only [if_pos, if_neg hyx, if_neg hself.1, if_neg hself.2, StringObject.null]
  · simp only [if_neg hzx, if_neg hzy, StringObject.null, reduceCtorEq, if_false]
  · simp only [StringObject.null, TaggedBlockPointer.pointer_reset, hc, and_false, if_false]

end Linked

end Heap

end Doost.Strings
