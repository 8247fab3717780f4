import Doost.Strings.SharedText

/-!
# The representation invariant of `String`

`Heap.Valid` is what the links, the uniqueness bits and the blocks satisfy between two operations.
`reachable_valid` says that it holds after every run of legal calls, and that no legal call then
touches an object or a block that does not exist.
-/

namespace Doost.Strings

open Transition Neighbours

namespace Heap

/-! ## Valid heaps -/

/-- The `next_` pointers from `p` on visit the objects of `l` in order, and end there. -/
def Follows (h : Heap) : Option ObjectId → List ObjectId → Prop
  | p, [] => p = none
  | p, x :: l => p = some x ∧ ∃ s, h.strings x = some s ∧ h.Follows s.next l

/-- `block_.pointer()` of the `String` at `x` is `b`. -/
def Owns (h : Heap) (x : ObjectId) (b : UIntPtr) : Prop :=
  ∃ s, h.strings x = some s ∧ s.block.pointer = b

/-- `l` is the chain of the owners of the block `k` at `b`. -/
structure Chain (h : Heap) (b : UIntPtr) (k : Block) (l : List ObjectId) : Prop where
  follows : h.Follows k.first l
  nodup : l.Nodup
  mem_iff : ∀ x, x ∈ l ↔ h.Owns x b
  inverse : ∀ x ∈ l, ∀ y ∈ l, ∀ s s', h.strings x = some s → h.strings y = some s' →
    (s.next = some y ↔ s'.previous = some x)
  next_mem : ∀ x ∈ l, ∀ s, h.strings x = some s → ∀ y, s.next = some y → y ∈ l
  previous_mem : ∀ x ∈ l, ∀ s, h.strings x = some s → ∀ y, s.previous = some y → y ∈ l
  previous_first : ∀ x s, l.head? = some x → h.strings x = some s → s.previous = none
  next_last : ∀ x s, l.getLast? = some x → h.strings x = some s → s.next = none

/-- The representation invariant. -/
structure Valid (h : Heap) : Prop where
  chain : ∀ b k, h.blocks b = some k → ∃ l, h.Chain b k l
  unique_iff : ∀ x s, h.strings x = some s → s.block.pointer ≠ 0 →
    (s.block.unique = true ↔ ∃! y, h.Owns y s.block.pointer)
  null : ∀ x s, h.strings x = some s → s.block.pointer = 0 →
    s.block.taggedAddress = 0 ∧ s.previous = none ∧ s.next = none
  live_iff : ∀ b, b ≠ 0 → ((h.blocks b).isSome ↔ ∃ x, h.Owns x b)

end Heap

namespace Ownership

variable {A : Ownership} {t : DebugTrace} {x y : ObjectId} {a b : UIntPtr}

theorem owns_iff (hb : b ≠ 0) : (A.heap t).Owns x b ↔ x ∈ A.owners b := by
  rw [A.mem_owners]
  constructor
  · rintro ⟨s, hs, rfl⟩
    obtain ⟨c, hc, rfl⟩ := Option.map_eq_some_iff.mp hs
    rw [pointer_ownerRecord hc] at hb ⊢
    exact ⟨hb, hc⟩
  · rintro ⟨-, hx⟩
    exact ⟨_, heap_strings hx, pointer_ownerRecord hx _ _⟩

theorem strings_of_mem (hx : x ∈ A.owners b) :
    (A.heap t).strings x = some (ownerRecord b (A.owners b) x) :=
  heap_strings (pointer_of_mem hx)

/-- From any owner on, the links follow the rest of the owner list. -/
theorem follows_owners {l₁ l₂ : List ObjectId} (hl : A.owners b = l₁ ++ l₂) :
    (A.heap t).Follows l₂.head? l₂ := by
  induction l₂ generalizing l₁ with
  | nil => rfl
  | cons x l₂ ih =>
    have hmem : x ∈ A.owners b := hl ▸ List.mem_append_right _ List.mem_cons_self
    have hx : x ∉ l₁ := fun h =>
      (List.nodup_append.mp (hl ▸ A.nodup b)).2.2 x h x List.mem_cons_self rfl
    refine ⟨rfl, _, strings_of_mem hmem, ?_⟩
    have hnext : nextIn (A.owners b) x = l₂.head? := by rw [hl, nextIn_middle hx]
    rw [ownerRecord_next, hnext]
    have hl' : A.owners b = (l₁ ++ [x]) ++ l₂ := by
      rw [hl, List.append_assoc, List.singleton_append]
    exact ih hl'

theorem chain_heap {d : List UInt8} (hd : A.data b = some d) :
    (A.heap t).Chain b ⟨(A.owners b).head?, d⟩ (A.owners b) where
  follows := follows_owners (List.nil_append _).symm
  nodup := A.nodup b
  mem_iff := fun x => (owns_iff (A.ne_zero b d hd)).symm
  inverse := by
    intro x hx y hy s s' hs hs'
    obtain rfl := Option.some.inj ((strings_of_mem hx).symm.trans hs)
    obtain rfl := Option.some.inj ((strings_of_mem hy).symm.trans hs')
    exact nextIn_eq_some_iff (A.nodup b)
  next_mem := by
    intro x hx s hs y hy
    obtain rfl := Option.some.inj ((strings_of_mem hx).symm.trans hs)
    exact mem_of_nextIn hy
  previous_mem := by
    intro x hx s hs y hy
    obtain rfl := Option.some.inj ((strings_of_mem hx).symm.trans hs)
    exact mem_of_prevIn hy
  previous_first := by
    intro x s hx hs
    have hmem := List.mem_of_mem_head? hx
    obtain rfl := Option.some.inj ((strings_of_mem hmem).symm.trans hs)
    exact (prevIn_eq_none_iff hmem (A.nodup b)).mpr hx
  next_last := by
    intro x s hx hs
    have hmem := List.mem_of_getLast? hx
    obtain rfl := Option.some.inj ((strings_of_mem hmem).symm.trans hs)
    exact (nextIn_eq_none_iff hmem (A.nodup b)).mpr hx

/-- A list of owners of length one is a unique owner. -/
theorem length_owners_iff : (A.owners b).length = 1 ↔ ∃! y, y ∈ A.owners b := by
  rw [List.length_eq_one_iff]
  constructor
  · rintro ⟨z, hz⟩
    exact ⟨z, by simp [hz], fun y hy => by simpa [hz] using hy⟩
  · rintro ⟨z, hz, hall⟩
    exact ⟨z, owners_eq_singleton hz hall⟩

/-- **The heap of a bookkeeping without unowned blocks is valid.** -/
theorem Tidy.valid (hA : A.Tidy) : (A.heap t).Valid where
  chain := by
    intro b k hk
    obtain ⟨d, hd, rfl⟩ := Option.map_eq_some_iff.mp hk
    exact ⟨_, chain_heap hd⟩
  unique_iff := by
    intro x s hs hne
    obtain ⟨c, hc, rfl⟩ := Option.map_eq_some_iff.mp hs
    rw [pointer_ownerRecord hc] at hne ⊢
    rw [unique_ownerRecord hc, beq_iff_eq, length_owners_iff]
    simp only [owns_iff hne]
  null := by
    intro x s hs hzero
    obtain ⟨c, hc, rfl⟩ := Option.map_eq_some_iff.mp hs
    rw [pointer_ownerRecord hc] at hzero
    rw [hzero, owners_zero, ownerRecord_zero]
    exact ⟨rfl, rfl, rfl⟩
  live_iff := by
    intro b hb
    simp only [isSome_heap_blocks, owns_iff hb]
    constructor
    · exact fun h => List.exists_mem_of_ne_nil _ (hA b h)
    · rintro ⟨x, hx⟩
      exact A.isSome_data b x hx

/-! ## Every legal call -/

theorem pointer_of_isSome (h : ((A.heap t).strings x).isSome) : ∃ b, A.pointer x = some b := by
  rw [isSome_heap_strings] at h
  exact Option.isSome_iff_exists.mp h

theorem pointer_of_isNone (h : ((A.heap t).strings x).isNone) : A.pointer x = none := by
  rw [Option.isNone_iff_eq_none] at h
  exact Option.map_eq_none_iff.mp h

/-- **Every legal call does what it means.** -/
theorem perform_becomes {op : StringOp} (hA : A.Tidy) (hop : (A.heap t).legal op) :
    ∃ r, (A.heap t).perform op = some r ∧ A.Becomes ((A.heap t).meaning op) (Heap.after r) := by
  have ok : ∀ {o : Option Heap} {s : SharedOp}, (∃ h, o = some h ∧ A.Becomes s h) →
      ∃ r, o.map Except.ok = some r ∧ A.Becomes s (Heap.after r) := by
    rintro o s ⟨h, rfl, hs⟩
    exact ⟨.ok h, rfl, hs⟩
  cases op with
  | defaultConstruct this => exact ⟨_, rfl, construct_becomes hA (pointer_of_isNone hop)⟩
  | constructText this text storage =>
    simp only [Heap.legal, Bool.and_eq_true] at hop
    exact constructText_becomes hA (pointer_of_isNone hop.1) hop.2
  | copyConstruct this other =>
    simp only [Heap.legal, Bool.and_eq_true] at hop
    obtain ⟨b, hb⟩ := pointer_of_isSome hop.2
    exact ok (copyConstruct_becomes hA (pointer_of_isNone hop.1) hb)
  | moveConstruct this other =>
    simp only [Heap.legal, Bool.and_eq_true] at hop
    obtain ⟨b, hb⟩ := pointer_of_isSome hop.2
    exact ok (moveConstruct_becomes hA (pointer_of_isNone hop.1) hb)
  | assignText this text replacement storage =>
    simp only [Heap.legal, Bool.and_eq_true] at hop
    obtain ⟨a, ha⟩ := pointer_of_isSome hop.1.1
    exact assignText_becomes hA ha (pointer_of_isNone hop.1.2) hop.2
  | copyAssign this other =>
    simp only [Heap.legal, Bool.and_eq_true] at hop
    obtain ⟨a, ha⟩ := pointer_of_isSome hop.1
    obtain ⟨b, hb⟩ := pointer_of_isSome hop.2
    exact ok (copyAssign_becomes hA ha hb)
  | moveAssign this other =>
    simp only [Heap.legal, Bool.and_eq_true] at hop
    obtain ⟨a, ha⟩ := pointer_of_isSome hop.1
    obtain ⟨b, hb⟩ := pointer_of_isSome hop.2
    exact ok (moveAssign_becomes hA ha hb)
  | reset this =>
    obtain ⟨a, ha⟩ := pointer_of_isSome hop
    exact ok (reset_becomes hA ha)
  | swap this other =>
    simp only [Heap.legal, Bool.and_eq_true] at hop
    obtain ⟨a, ha⟩ := pointer_of_isSome hop.1
    obtain ⟨b, hb⟩ := pointer_of_isSome hop.2
    exact ok (swap_becomes hA ha hb)
  | freeSwap lhs rhs =>
    simp only [Heap.legal, Bool.and_eq_true] at hop
    obtain ⟨a, ha⟩ := pointer_of_isSome hop.1
    obtain ⟨b, hb⟩ := pointer_of_isSome hop.2
    exact ok (swap_becomes hA ha hb)
  | destroy this =>
    obtain ⟨a, ha⟩ := pointer_of_isSome hop
    exact ok (destroy_becomes hA ha)
  | setDebugTrace stream => exact ⟨_, rfl, becomes_skip hA { t with stream := stream }⟩

/-- No object and no block. -/
def empty : Ownership where
  pointer := fun _ => none
  owners := fun _ => []
  data := fun _ => none
  nodup := fun _ => List.nodup_nil
  mem_owners := by simp
  isSome_data := by simp
  ne_zero := by simp
  even := by simp
  terminated := by simp
  size_lt := by simp

theorem tidy_empty : empty.Tidy := fun _ h => absurd h Bool.false_ne_true

end Ownership

/-! ## Runs -/

/-- `h` is the heap of a bookkeeping without unowned blocks. -/
def Heap.Represented (h : Heap) : Prop := ∃ (A : Ownership) (t : DebugTrace), h = A.heap t ∧ A.Tidy

theorem represented_start (t : DebugTrace) : (Heap.start t).Represented :=
  ⟨.empty, t, rfl, Ownership.tidy_empty⟩

theorem represented_next {h h' : Heap} {op : StringOp} (hh : h.Represented)
    (hnext : h.next op = some h') : h'.Represented := by
  obtain ⟨A, t, rfl, hA⟩ := hh
  rw [Heap.next] at hnext
  split at hnext
  · next hop =>
    obtain ⟨r, hr, A', t', hA', htidy, -⟩ := Ownership.perform_becomes hA hop
    rw [hr, Option.map_some] at hnext
    obtain rfl := Option.some.inj hnext
    exact ⟨A', t', hA', htidy⟩
  · cases hnext

theorem represented_run {t : DebugTrace} {ops : List StringOp} {h : Heap}
    (hrun : run Heap.next (Heap.start t) ops = some h) : h.Represented :=
  run_invariant (fun _ _ _ hh (_ : True) => represented_next hh) (represented_start t)
    (fun _ _ => trivial) hrun

/-- **After every run of legal calls the representation invariant holds**, and every legal call
is defined. -/
theorem reachable_valid (t : DebugTrace) (ops : List StringOp) (h : Heap)
    (hrun : run Heap.next (Heap.start t) ops = some h) :
    h.Valid ∧ ∀ op, h.legal op → ∃ r, h.perform op = some r := by
  obtain ⟨A, t', rfl, hA⟩ := represented_run hrun
  refine ⟨hA.valid, fun op hop => ?_⟩
  obtain ⟨r, hr, -⟩ := Ownership.perform_becomes hA hop
  exact ⟨r, hr⟩

/-- Three owners of one block, one of which moves it on to a fourth object. -/
def sharingRun : List StringOp :=
  [.constructText 0 (.string [104, 105]) (some 4096), .copyConstruct 1 0, .copyConstruct 2 1,
    .moveConstruct 3 1, .assignText 0 (.cString (some (.inside 4096 1))) 4 (some 8192)]

/-- After `sharingRun`, objects 2 and 3 own the first block and object 0 the second. -/
theorem reachable_valid_sharingRun :
    ∃ h, run Heap.next (Heap.start ⟨true, none, fun _ => []⟩) sharingRun = some h ∧ h.Valid ∧
      h.unique 0 = some true ∧ h.unique 2 = some false ∧ h.hasValue 1 = some false ∧
      h.cStr 0 = some [105, 0] ∧ h.cStr 3 = some [104, 105, 0] := by
  have hfacts : (run Heap.next (Heap.start ⟨true, none, fun _ => []⟩) sharingRun).map
      (fun h => (h.unique 0, h.unique 2, h.hasValue 1, h.cStr 0, h.cStr 3)) =
        some (some true, some false, some false, some [105, 0], some [104, 105, 0]) := by rfl
  obtain ⟨h, hrun, hh⟩ := Option.map_eq_some_iff.mp hfacts
  simp only [Prod.mk.injEq] at hh
  exact ⟨h, hrun, (reachable_valid _ sharingRun h hrun).1, hh⟩

end Doost.Strings
