import Doost.Strings.Invariant

/-!
# Swap and move rename owners

On every valid heap `swap` of owners of different blocks, and `String(String&&)`, are renamings:
each chain of owners keeps its order, and the uniqueness bits travel with the blocks.
`swap_move_rename` is the statement; the links of a valid heap (`Valid.linked`) and the chains after
a renaming (`Chain.rename`) lead to it.
-/

namespace Doost.Strings

open Transition

namespace Heap

variable {h : Heap} {σ : Equiv.Perm ObjectId} {x y z : ObjectId} {s s' : StringObject}
  {b : UIntPtr} {k : Block} {l l₁ l₂ : List ObjectId} {p : Option ObjectId}

/-! ## Along a chain -/

theorem Follows.eq_head? (hl : h.Follows p l) : p = l.head? := by
  cases l with
  | nil => exact hl
  | cons x l => exact hl.1

/-- The link of an owner leads to the rest of the chain. -/
theorem Follows.next_eq (hl : h.Follows p (l₁ ++ x :: l₂)) (hx : h.strings x = some s) :
    s.next = l₂.head? := by
  induction l₁ generalizing p with
  | nil =>
    obtain ⟨-, s', hs', hrest⟩ := hl
    obtain rfl := Option.some.inj (hx.symm.trans hs')
    exact hrest.eq_head?
  | cons w l₁ ih =>
    obtain ⟨-, s', -, hrest⟩ := hl
    exact ih hrest

/-- The link back from an owner leads to the owner before it. -/
theorem Chain.previous_eq (hl : h.Chain b k (l₁ ++ x :: l₂)) (hx : h.strings x = some s) :
    s.previous = l₁.getLast? := by
  have hmem : x ∈ l₁ ++ x :: l₂ := List.mem_append_right l₁ List.mem_cons_self
  rcases List.eq_nil_or_concat l₁ with rfl | ⟨l₀, w, rfl⟩
  · exact hl.previous_first x s rfl hx
  · have hwmem : w ∈ l₀.concat w ++ x :: l₂ := by simp
    obtain ⟨s', hs', -⟩ := (hl.mem_iff w).mp hwmem
    have hnext : s'.next = some x := by
      have hfollows := hl.follows
      rw [List.concat_append] at hfollows
      exact hfollows.next_eq hs'
    rw [(hl.inverse w hwmem x hmem s' s hs' hx).mp hnext, List.concat_eq_append,
      List.getLast?_concat]

theorem Chain.first_iff (hl : h.Chain b k l) (hx : h.strings x = some s) :
    k.first = some x ↔ s.previous = none ∧ s.block.pointer = b := by
  rw [hl.follows.eq_head?]
  constructor
  · intro hhead
    obtain ⟨s', hs', hblock⟩ := (hl.mem_iff x).mp (List.mem_of_mem_head? hhead)
    obtain rfl := Option.some.inj (hx.symm.trans hs')
    exact ⟨hl.previous_first x s hhead hx, hblock⟩
  · rintro ⟨hprevious, hblock⟩
    obtain ⟨l₁, l₂, rfl⟩ := List.append_of_mem ((hl.mem_iff x).mpr ⟨s, hx, hblock⟩)
    rw [hl.previous_eq hx, List.getLast?_eq_none_iff] at hprevious
    rw [hprevious]
    rfl

namespace Valid

theorem ne_zero_of_next (hh : h.Valid) (hx : h.strings x = some s) (hlink : s.next = some y) :
    s.block.pointer ≠ 0 := by
  intro hzero
  cases (hh.null x s hx hzero).2.2.symm.trans hlink

theorem ne_zero_of_previous (hh : h.Valid) (hx : h.strings x = some s)
    (hlink : s.previous = some y) : s.block.pointer ≠ 0 := by
  intro hzero
  cases (hh.null x s hx hzero).2.1.symm.trans hlink

theorem exists_chain (hh : h.Valid) (hx : h.strings x = some s) (hne : s.block.pointer ≠ 0) :
    ∃ k l, h.blocks s.block.pointer = some k ∧ h.Chain s.block.pointer k l ∧ x ∈ l := by
  have howns : h.Owns x s.block.pointer := ⟨s, hx, rfl⟩
  obtain ⟨k, hk⟩ := Option.isSome_iff_exists.mp ((hh.live_iff _ hne).mpr ⟨x, howns⟩)
  obtain ⟨l, hl⟩ := hh.chain _ k hk
  exact ⟨k, l, hk, hl, (hl.mem_iff x).mpr howns⟩

theorem next_iff (hh : h.Valid) (hx : h.strings x = some s) (hy : h.strings y = some s') :
    s.next = some y ↔ s'.previous = some x := by
  constructor
  · intro hlink
    obtain ⟨k, l, -, hl, hmem⟩ := hh.exists_chain hx (hh.ne_zero_of_next hx hlink)
    exact (hl.inverse x hmem y (hl.next_mem x hmem s hx y hlink) s s' hx hy).mp hlink
  · intro hlink
    obtain ⟨k, l, -, hl, hmem⟩ := hh.exists_chain hy (hh.ne_zero_of_previous hy hlink)
    exact (hl.inverse x (hl.previous_mem y hmem s' hy x hlink) y hmem s s' hx hy).mpr hlink

theorem next_mem (hh : h.Valid) (hx : h.strings x = some s) (hlink : s.next = some y) :
    y ≠ x ∧ ∃ s', h.strings y = some s' ∧ s'.block.pointer = s.block.pointer := by
  obtain ⟨k, l, -, hl, hmem⟩ := hh.exists_chain hx (hh.ne_zero_of_next hx hlink)
  refine ⟨?_, (hl.mem_iff y).mp (hl.next_mem x hmem s hx y hlink)⟩
  rintro rfl
  obtain ⟨l₁, l₂, rfl⟩ := List.append_of_mem hmem
  have hhead := (hl.follows.next_eq hx).symm.trans hlink
  exact (List.nodup_cons.mp (List.nodup_append.mp hl.nodup).2.1).1 (List.mem_of_mem_head? hhead)

/-- **The links of a valid heap**, in which no block is at the null address. -/
theorem linked (hh : h.Valid) (hzero : h.blocks 0 = none) : h.Linked where
  null := by
    intro x s hx hnull
    obtain ⟨htag, hprevious, hnext⟩ := hh.null x s hx hnull
    obtain ⟨⟨tag⟩, previous, next⟩ := s
    simp only at htag hprevious hnext
    rw [htag, hprevious, hnext]
    rfl
  live := fun x s hx hne => (hh.live_iff _ hne).mpr ⟨x, s, hx, rfl⟩
  blocks_zero := hzero
  first_mem := by
    intro b k x hk hfirst
    obtain ⟨l, hl⟩ := hh.chain b k hk
    rw [hl.follows.eq_head?] at hfirst
    obtain ⟨s, hs, -⟩ := (hl.mem_iff x).mp (List.mem_of_mem_head? hfirst)
    rw [hs]
    rfl
  next_iff := fun x s y s' hx hy => hh.next_iff hx hy
  next_mem := fun x s y hx hlink => hh.next_mem hx hlink
  previous_mem := by
    intro x s y hx hlink
    obtain ⟨k, l, -, hl, hmem⟩ := hh.exists_chain hx (hh.ne_zero_of_previous hx hlink)
    obtain ⟨s', hy, hblock⟩ := (hl.mem_iff y).mp (hl.previous_mem x hmem s hx y hlink)
    exact ⟨(hh.next_mem hy ((hh.next_iff hy hx).mpr hlink)).1.symm, s', hy, hblock⟩
  first_iff := by
    intro b k x s hk hx
    obtain ⟨l, hl⟩ := hh.chain b k hk
    exact hl.first_iff hx

end Valid

/-! ## Chains after a renaming -/

theorem owns_rename : (h.rename σ).Owns (σ x) b ↔ h.Owns x b := by
  constructor
  · rintro ⟨s, hs, hb⟩
    rw [rename_strings_apply, Option.map_eq_some_iff] at hs
    obtain ⟨s', hs', rfl⟩ := hs
    exact ⟨s', hs', hb⟩
  · rintro ⟨s, hs, hb⟩
    exact ⟨s.rename σ, by rw [rename_strings_apply, hs, Option.map_some], hb⟩

theorem Follows.rename (hl : h.Follows p l) : (h.rename σ).Follows (p.map σ) (l.map σ) := by
  induction l generalizing p with
  | nil => exact congrArg (Option.map σ) hl
  | cons x l ih =>
    obtain ⟨rfl, s, hs, hrest⟩ := hl
    exact ⟨rfl, s.rename σ, by rw [rename_strings_apply, hs, Option.map_some], ih hrest⟩

/-- The objects of a renamed chain. -/
theorem exists_of_mem_map (hx : x ∈ l.map σ) (hs : (h.rename σ).strings x = some s) :
    ∃ x₀ ∈ l, x = σ x₀ ∧ ∃ s₀, h.strings x₀ = some s₀ ∧ s = s₀.rename σ := by
  obtain ⟨x₀, s₀, rfl, hs₀, rfl⟩ := of_strings_rename hs
  exact ⟨x₀, (List.mem_map_of_injective σ.injective).mp hx, rfl, s₀, hs₀, rfl⟩

/-- **A renaming keeps the order of every chain.** -/
theorem Chain.rename (hl : h.Chain b k l) : (h.rename σ).Chain b (k.rename σ) (l.map σ) where
  follows := hl.follows.rename
  nodup := hl.nodup.map σ.injective
  mem_iff := by
    intro x
    rw [← σ.apply_symm_apply x, owns_rename, ← hl.mem_iff, List.mem_map_of_injective σ.injective]
  inverse := by
    intro x hx y hy s s' hs hs'
    obtain ⟨x₀, hx₀, rfl, s₀, hs₀, rfl⟩ := exists_of_mem_map hx hs
    obtain ⟨y₀, hy₀, rfl, s₁, hs₁, rfl⟩ := exists_of_mem_map hy hs'
    simp only [StringObject.rename, Option.map_eq_some_iff, σ.apply_eq_iff_eq, exists_eq_right]
    exact hl.inverse x₀ hx₀ y₀ hy₀ s₀ s₁ hs₀ hs₁
  next_mem := by
    intro x hx s hs y hy
    obtain ⟨x₀, hx₀, rfl, s₀, hs₀, rfl⟩ := exists_of_mem_map hx hs
    obtain ⟨y₀, hy₀, rfl⟩ := Option.map_eq_some_iff.mp hy
    exact List.mem_map_of_mem (hl.next_mem x₀ hx₀ s₀ hs₀ y₀ hy₀)
  previous_mem := by
    intro x hx s hs y hy
    obtain ⟨x₀, hx₀, rfl, s₀, hs₀, rfl⟩ := exists_of_mem_map hx hs
    obtain ⟨y₀, hy₀, rfl⟩ := Option.map_eq_some_iff.mp hy
    exact List.mem_map_of_mem (hl.previous_mem x₀ hx₀ s₀ hs₀ y₀ hy₀)
  previous_first := by
    intro x s hx hs
    rw [List.head?_map, Option.map_eq_some_iff] at hx
    obtain ⟨x, hx, rfl⟩ := hx
    rw [rename_strings_apply, Option.map_eq_some_iff] at hs
    obtain ⟨s, hs, rfl⟩ := hs
    exact congrArg (Option.map σ) (hl.previous_first x s hx hs)
  next_last := by
    intro x s hx hs
    rw [List.getLast?_map, Option.map_eq_some_iff] at hx
    obtain ⟨x, hx, rfl⟩ := hx
    rw [rename_strings_apply, Option.map_eq_some_iff] at hs
    obtain ⟨s, hs, rfl⟩ := hs
    exact congrArg (Option.map σ) (hl.next_last x s hx hs)

/-! ## A new null object -/

theorem construct_self (h : Heap) (z : ObjectId) : (h.construct z).strings z = some .null :=
  Function.update_self ..

theorem construct_of_ne (hxz : x ≠ z) : (h.construct z).strings x = h.strings x :=
  Function.update_of_ne hxz ..

theorem strings_of_construct (hz : h.strings z = none) (hx : h.strings x = some s) :
    (h.construct z).strings x = some s := by
  rw [construct_of_ne, hx]
  rintro rfl
  cases hz.symm.trans hx

theorem of_strings_construct (hx : (h.construct z).strings x = some s) :
    x = z ∧ s = .null ∨ h.strings x = some s := by
  by_cases hxz : x = z
  · subst hxz
    exact .inl ⟨rfl, Option.some.inj (hx.symm.trans (construct_self h x))⟩
  · exact .inr ((construct_of_ne hxz).symm.trans hx)

theorem Follows.congr {h' : Heap} (hl : h.Follows p l)
    (hsame : ∀ x ∈ l, h'.strings x = h.strings x) : h'.Follows p l := by
  induction l generalizing p with
  | nil => exact hl
  | cons x l ih =>
    obtain ⟨rfl, s, hs, hrest⟩ := hl
    exact ⟨rfl, s, (hsame x List.mem_cons_self).trans hs,
      ih hrest fun y hy => hsame y (List.mem_cons_of_mem x hy)⟩

/-- A new null object is in no chain. -/
theorem Chain.construct (hl : h.Chain b k l) (hb : b ≠ 0) (hz : h.strings z = none) :
    (h.construct z).Chain b k l := by
  have hsame : ∀ x ∈ l, (h.construct z).strings x = h.strings x := by
    intro x hx
    obtain ⟨s, hs, -⟩ := (hl.mem_iff x).mp hx
    exact (strings_of_construct hz hs).trans hs.symm
  refine ⟨hl.follows.congr hsame, hl.nodup, fun x => ?_, ?_, ?_, ?_, ?_, ?_⟩
  · rw [hl.mem_iff]
    constructor
    · rintro ⟨s, hs, rfl⟩
      exact ⟨s, strings_of_construct hz hs, rfl⟩
    · rintro ⟨s, hs, rfl⟩
      rcases of_strings_construct hs with ⟨-, rfl⟩ | hs
      · exact absurd TaggedBlockPointer.pointer_reset hb
      · exact ⟨s, hs, rfl⟩
  · intro x hx y hy s s' hs hs'
    rw [hsame x hx] at hs
    rw [hsame y hy] at hs'
    exact hl.inverse x hx y hy s s' hs hs'
  · intro x hx s hs
    rw [hsame x hx] at hs
    exact hl.next_mem x hx s hs
  · intro x hx s hs
    rw [hsame x hx] at hs
    exact hl.previous_mem x hx s hs
  · intro x s hx hs
    rw [hsame x (List.mem_of_mem_head? hx)] at hs
    exact hl.previous_first x s hx hs
  · intro x s hx hs
    rw [hsame x (List.mem_of_getLast? hx)] at hs
    exact hl.next_last x s hx hs

theorem Linked.construct (hh : h.Linked) (hz : h.strings z = none) : (h.construct z).Linked where
  null := by
    intro x s hx hnull
    rcases of_strings_construct hx with ⟨-, rfl⟩ | hx
    · rfl
    · exact hh.null x s hx hnull
  live := by
    intro x s hx hne
    rcases of_strings_construct hx with ⟨-, rfl⟩ | hx
    · exact absurd TaggedBlockPointer.pointer_reset hne
    · exact hh.live x s hx hne
  blocks_zero := hh.blocks_zero
  first_mem := by
    intro b k x hk hfirst
    obtain ⟨s, hs⟩ := Option.isSome_iff_exists.mp (hh.first_mem b k x hk hfirst)
    rw [strings_of_construct hz hs]
    rfl
  next_iff := by
    intro x s y s' hx hy
    rcases of_strings_construct hx with ⟨rfl, rfl⟩ | hx' <;>
      rcases of_strings_construct hy with ⟨rfl, rfl⟩ | hy'
    · simp [StringObject.null]
    · -- nobody points to the new object
      simp only [StringObject.null, reduceCtorEq, false_iff]
      intro hlink
      obtain ⟨-, s'', hs'', -⟩ := hh.previous_mem y s' x hy' hlink
      cases hz.symm.trans hs''
    · simp only [StringObject.null, reduceCtorEq, iff_false]
      intro hlink
      obtain ⟨-, s'', hs'', -⟩ := hh.next_mem x s y hx' hlink
      cases hz.symm.trans hs''
    · exact hh.next_iff x s y s' hx' hy'
  next_mem := by
    intro x s y hx hlink
    rcases of_strings_construct hx with ⟨-, rfl⟩ | hx
    · cases hlink
    · obtain ⟨hne, s', hy, hblock⟩ := hh.next_mem x s y hx hlink
      exact ⟨hne, s', strings_of_construct hz hy, hblock⟩
  previous_mem := by
    intro x s y hx hlink
    rcases of_strings_construct hx with ⟨-, rfl⟩ | hx
    · cases hlink
    · obtain ⟨hne, s', hy, hblock⟩ := hh.previous_mem x s y hx hlink
      exact ⟨hne, s', strings_of_construct hz hy, hblock⟩
  first_iff := by
    intro b k x s hk hx
    rcases of_strings_construct hx with ⟨rfl, rfl⟩ | hx
    · constructor
      · intro hfirst
        have hlive := hh.first_mem b k x hk hfirst
        rw [hz] at hlive
        cases hlive
      · rintro ⟨-, rfl⟩
        rw [StringObject.null, TaggedBlockPointer.pointer_reset] at hk
        cases hh.blocks_zero.symm.trans hk
    · exact hh.first_iff b k x s hk hx

/-! ## Swap and move -/

/-- Every block keeps its characters and, with the objects renamed by `σ`, its chain. -/
def KeepsChains (h : Heap) (σ : Equiv.Perm ObjectId) (h' : Heap) : Prop :=
  ∀ b k l, h.blocks b = some k → h.Chain b k l →
    ∃ k', h'.blocks b = some k' ∧ k'.data = k.data ∧ h'.Chain b k' (l.map σ)

/-- Every object but `x` and `y` keeps its block and its uniqueness bit. -/
def KeepsOthers (h : Heap) (x y : ObjectId) (h' : Heap) : Prop :=
  ∀ z, z ≠ x → z ≠ y → (h'.strings z).map (·.block) = (h.strings z).map (·.block)

theorem keepsChains_rename : h.KeepsChains σ (h.rename σ) := by
  intro b k l hk hl
  exact ⟨k.rename σ, by rw [rename_blocks, hk, Option.map_some], rfl, hl.rename⟩

theorem keepsOthers_rename (h : Heap) (x y : ObjectId) :
    h.KeepsOthers x y (h.rename (Equiv.swap x y)) := by
  intro z hzx hzy
  rw [rename_strings, Equiv.symm_swap, Equiv.swap_apply_of_ne_of_ne hzx hzy, Option.map_map]
  rfl

/-- An exchange puts the two objects, with their links, into each other's places. -/
theorem Linked.strings_rename_swap (hh : h.Linked) (hx : h.strings x = some s)
    (hy : h.strings y = some s') (hne : s.block.pointer ≠ s'.block.pointer) :
    (h.rename (Equiv.swap x y)).strings x = some s' ∧
      (h.rename (Equiv.swap x y)).strings y = some s := by
  constructor
  · rw [rename_strings, Equiv.symm_swap, Equiv.swap_apply_left, hy, Option.map_some,
      hh.rename_swap_right hx hy hne]
  · rw [rename_strings, Equiv.symm_swap, Equiv.swap_apply_right, hx, Option.map_some,
      hh.rename_swap_left hx hy hne]

end Heap

/-- **Swap and move rename owners.** The heap is any valid one without a block at the null
address; `x` and `y` are any two of its objects, and `z` is a place for a new one. -/
theorem swap_move_rename (h : Heap) (x y : ObjectId) (s s' : StringObject) (hh : h.Valid)
    (hzero : h.blocks 0 = none) (hx : h.strings x = some s) (hy : h.strings y = some s') :
    (s.block.pointer ≠ s'.block.pointer → ∃ h', h.swap x y = some h' ∧
      h' = h.rename (Equiv.swap x y) ∧ h'.strings x = some s' ∧ h'.strings y = some s ∧
      h.KeepsChains (Equiv.swap x y) h' ∧ h.KeepsOthers x y h' ∧ h'.swap x y = some h) ∧
    (s.block.pointer = s'.block.pointer → h.swap x y = some h) ∧
    ∀ z, h.strings z = none → ∃ h', h.moveConstruct z x = some h' ∧
      h' = (h.construct z).rename (Equiv.swap z x) ∧ h'.strings z = some s ∧
      h'.strings x = some .null ∧ h.KeepsChains (Equiv.swap z x) h' ∧ h.KeepsOthers z x h' := by
  have hlinked := hh.linked hzero
  refine ⟨fun hne => ?_, Heap.Linked.swap_of_eq hx hy, fun z hz => ?_⟩
  · obtain ⟨hx', hy'⟩ := hlinked.strings_rename_swap hx hy hne
    refine ⟨_, hlinked.swap_eq hx hy hne, rfl, hx', hy', Heap.keepsChains_rename,
      h.keepsOthers_rename x y, ?_⟩
    rw [(hlinked.rename _).swap_eq hx' hy' hne.symm, Heap.rename_swap_swap]
  · have hx' := Heap.strings_of_construct hz hx
    have hz' := h.construct_self z
    have hzx : z ≠ x := by
      rintro rfl
      cases hz.symm.trans hx
    have hnew := hlinked.construct hz
    refine ⟨_, hnew.moveFrom_eq hz' hx' hzx, rfl, ?_, ?_, fun b k l hk hl => ?_,
      fun w hwz hwx => ?_⟩
    · rw [Heap.rename_strings, Equiv.symm_swap, Equiv.swap_apply_left, hx', Option.map_some,
        hnew.rename_swap_null hz' hx']
    · rw [Heap.rename_strings, Equiv.symm_swap, Equiv.swap_apply_right, hz', Option.map_some,
        StringObject.rename_null]
    · have hb : b ≠ 0 := by
        rintro rfl
        cases hzero.symm.trans hk
      exact Heap.keepsChains_rename b k l hk (hl.construct hb hz)
    · rw [Heap.keepsOthers_rename _ z x w hwz hwx, Heap.construct_of_ne hwz]

/-- Three owners of one block, two of another and a null object. -/
def twoChainsRun : List StringOp :=
  [.constructText 0 (.string [97]) (some 4096), .copyConstruct 1 0, .copyConstruct 2 1,
    .constructText 3 (.string [98]) (some 8192), .copyConstruct 4 3, .defaultConstruct 5]

/-- The middle of the first chain against the front of the second, and two owners of one block. -/
theorem swap_move_rename_twoChainsRun :
    ∃ h, run Heap.next (Heap.start ⟨false, none, fun _ => []⟩) twoChainsRun = some h ∧
      h.swap 1 4 = some (h.rename (Equiv.swap 1 4)) ∧
      (h.rename (Equiv.swap 1 4)).swap 1 4 = some h ∧ h.swap 0 1 = some h ∧
      h.moveConstruct 6 1 = some ((h.construct 6).rename (Equiv.swap 6 1)) := by
  have hfacts : (run Heap.next (Heap.start ⟨false, none, fun _ => []⟩) twoChainsRun).map
      (fun h => (h.strings 0, h.strings 1, h.strings 4, h.strings 6)) =
        some (some ⟨⟨4096⟩, some 1, none⟩, some ⟨⟨4096⟩, some 2, some 0⟩,
          some ⟨⟨8192⟩, none, some 3⟩, none) := by rfl
  obtain ⟨h, hrun, hh⟩ := Option.map_eq_some_iff.mp hfacts
  simp only [Prod.mk.injEq] at hh
  obtain ⟨h0, h1, h4, h6⟩ := hh
  obtain ⟨A, t, rfl, hA⟩ := represented_run hrun
  have hzero := (A.linked_heap t).blocks_zero
  obtain ⟨hapart, -, hmove⟩ := swap_move_rename _ 1 4 _ _ hA.valid hzero h1 h4
  obtain ⟨h', hswap, rfl, -, -, -, -, hback⟩ := hapart (by decide)
  obtain ⟨h'', hconstruct, rfl, -⟩ := hmove 6 h6
  have hsame := (swap_move_rename _ 0 1 _ _ hA.valid hzero h0 h1).2.1 rfl
  exact ⟨_, hrun, hswap, hback, hsame, hconstruct⟩

end Doost.Strings
