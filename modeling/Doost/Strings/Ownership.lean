import Doost.Foundations.Neighbours
import Doost.Strings.Heap

/-!
# Valid heaps of `String` objects

An `Ownership` says which block each `String` object points to, and in which order the owners of
a block are chained; its fields make a wrong bookkeeping unrepresentable. `Ownership.heap` is the
heap that records it: neighbours in the owner list are linked, and the uniqueness bit is set for a
list of one. `addString`, `attach`, `detach` and the others are the changes of the bookkeeping
that the operations on such heaps make.
-/

namespace Doost.Strings

open Neighbours

/-! ## Tagged pointers -/

namespace TaggedBlockPointer

variable {b : UIntPtr}

theorem and_kUniqueMask (hb : b.toNat % 2 = 0) : b &&& kUniqueMask = 0 := by
  apply BitVec.eq_of_toNat_eq
  rw [BitVec.toNat_and, show kUniqueMask.toNat = 1 by decide, Nat.and_one_is_mod, hb]
  rfl

theorem and_kAddressMask (hb : b.toNat % 2 = 0) : b &&& kAddressMask = b := by
  have hmask := and_kUniqueMask hb
  rw [kAddressMask]
  ext i hi
  have hbit : (b &&& kUniqueMask)[i] = (0 : UIntPtr)[i] :=
    congrArg (fun w : UIntPtr => w[i]) hmask
  simp only [BitVec.getElem_and, BitVec.getElem_not] at hbit ⊢
  cases h : b[i] <;> simp_all

theorem or_and_kAddressMask (hb : b.toNat % 2 = 0) :
    (b ||| kUniqueMask) &&& kAddressMask = b := by
  rw [← and_kAddressMask hb, kAddressMask]
  ext i hi
  simp only [BitVec.getElem_and, BitVec.getElem_not, BitVec.getElem_or]
  cases b[i] <;> cases kUniqueMask[i] <;> rfl

theorem or_and_kUniqueMask : (b ||| kUniqueMask) &&& kUniqueMask = kUniqueMask := by
  ext i hi
  simp only [BitVec.getElem_and, BitVec.getElem_or]
  cases b[i] <;> cases kUniqueMask[i] <;> rfl

theorem set_true : set b true = ⟨b ||| kUniqueMask⟩ := rfl

theorem set_false (hb : b.toNat % 2 = 0) : set b false = ⟨b⟩ :=
  congrArg TaggedBlockPointer.mk (and_kAddressMask hb)

theorem reset_eq : reset = set 0 false := by decide

@[simp] theorem pointer_reset : reset.pointer = 0 := by decide

theorem pointer_set (hb : b.toNat % 2 = 0) (u : Bool) : (set b u).pointer = b := by
  cases u with
  | false => rw [set_false hb]; exact and_kAddressMask hb
  | true => exact or_and_kAddressMask hb

theorem unique_set (hb : b.toNat % 2 = 0) (u : Bool) : (set b u).unique = u := by
  cases u with
  | false =>
    rw [set_false hb, unique, and_kUniqueMask hb]
    rfl
  | true =>
    rw [set_true, unique, or_and_kUniqueMask]
    rfl

theorem setUnique_set (hb : b.toNat % 2 = 0) (u v : Bool) : (set b u).setUnique v = set b v := by
  cases u with
  | false => rw [set_false hb, set]
  | true =>
    cases v with
    | false =>
      rw [set_false hb]
      exact congrArg TaggedBlockPointer.mk (or_and_kAddressMask hb)
    | true =>
      rw [set_true, setUnique, if_pos rfl, BitVec.or_assoc, BitVec.or_self]

end TaggedBlockPointer

/-! ## Assignments in a heap -/

namespace Heap

@[simp] theorem mapAll_strings (h : Heap) (f g) (x : ObjectId) :
    (h.mapAll f g).strings x = (h.strings x).map (f x) := rfl

@[simp] theorem mapAll_blocks (h : Heap) (f g) (b : UIntPtr) :
    (h.mapAll f g).blocks b = (h.blocks b).map (g b) := rfl

@[simp] theorem mapAll_mapAll (h : Heap) (f g f' g') :
    (h.mapAll f g).mapAll f' g' =
      h.mapAll (fun x s => f' x (f x s)) (fun b k => g' b (g b k)) := by
  simp [mapAll, Function.comp_def]

variable {h : Heap}

theorem modifyString_eq {x : ObjectId} (hx : (h.strings x).isSome) (f) :
    h.modifyString x f = some (h.mapAll (fun z s => if z = x then f s else s) fun _ b => b) := by
  obtain ⟨s, hs⟩ := Option.isSome_iff_exists.mp hx
  rw [modifyString, hs, Option.map_some]

theorem setFirst_eq {b : UIntPtr} (hb : (h.blocks b).isSome) (value) :
    h.setFirst b value = some (h.mapAll (fun _ s => s)
      fun c k => if c = b then { k with first := value } else k) := by
  obtain ⟨k, hk⟩ := Option.isSome_iff_exists.mp hb
  rw [setFirst, hk, Option.map_some]

theorem setForward_eq {b : UIntPtr} {previous : Option ObjectId} (hb : (h.blocks b).isSome)
    (hp : ∀ p, previous = some p → (h.strings p).isSome) (value) :
    h.setForward b previous value = some (h.mapAll
      (fun z s => if previous = some z then { s with next := value } else s)
      fun c k => if previous = none ∧ c = b then { k with first := value } else k) := by
  cases previous with
  | none => simp [setForward, setFirst_eq hb]
  | some p => simp [setForward, modifyString_eq (hp p rfl), eq_comm]

theorem modifyPointee_eq {p : Option ObjectId} (hp : ∀ x, p = some x → (h.strings x).isSome) (f) :
    h.modifyPointee p f =
      some (h.mapAll (fun z s => if p = some z then f s else s) fun _ k => k) := by
  cases p with
  | none => simp [modifyPointee, mapAll]
  | some x => simp [modifyPointee, modifyString_eq (hp x rfl), eq_comm]

end Heap

/-! ## One chain of owners -/

/-- The `String` at `x` when the owners of its block `b` are chained in the order of `l`. -/
def ownerRecord (b : UIntPtr) (l : List ObjectId) (x : ObjectId) : StringObject :=
  ⟨.set b (l.length == 1), prevIn l x, nextIn l x⟩

@[simp] theorem ownerRecord_previous (b : UIntPtr) (l : List ObjectId) (x : ObjectId) :
    (ownerRecord b l x).previous = prevIn l x := rfl

@[simp] theorem ownerRecord_next (b : UIntPtr) (l : List ObjectId) (x : ObjectId) :
    (ownerRecord b l x).next = nextIn l x := rfl

theorem ownerRecord_zero (x : ObjectId) : ownerRecord 0 [] x = .null := by
  rw [StringObject.null, TaggedBlockPointer.reset_eq]
  rfl

section Front

variable {b : UIntPtr} {l : List ObjectId} {x z : ObjectId}

theorem ownerRecord_cons_self (hx : x ∉ l) :
    ownerRecord b (x :: l) x = ⟨.set b l.head?.isNone, none, l.head?⟩ := by
  have hprev : prevIn (x :: l) x = none := prevIn_of_notMem_tail hx
  rw [ownerRecord, hprev, nextIn_cons, if_pos rfl]
  cases l <;> rfl

theorem ownerRecord_cons_first (hx : x ∉ l) (hz : l.head? = some z) :
    ownerRecord b (x :: l) z = ⟨.set b false, some x, nextIn l z⟩ := by
  have hzx : z ≠ x := fun h => hx (h ▸ List.mem_of_mem_head? hz)
  rw [ownerRecord, prevIn_cons, if_pos hz, nextIn_cons, if_neg hzx]
  cases l with
  | nil => cases hz
  | cons a l => rfl

/-- An owner behind the first keeps its fields when `x` is put in front. -/
theorem ownerRecord_cons_other (hzx : z ≠ x) (hzl : z ∈ l) (hz : l.head? ≠ some z) :
    ownerRecord b (x :: l) z = ownerRecord b l z := by
  rw [ownerRecord, prevIn_cons, if_neg hz, nextIn_cons, if_neg hzx, ownerRecord]
  rcases l with - | ⟨a, - | ⟨c, l⟩⟩
  · exact absurd hzl List.not_mem_nil
  · exact absurd (congrArg some (List.mem_singleton.mp hzl).symm) hz
  · rfl

end Front

section Remove

variable {b : UIntPtr} {l₁ l₂ : List ObjectId} {x z : ObjectId}

theorem ownerRecord_middle (h : (l₁ ++ x :: l₂).Nodup) :
    ownerRecord b (l₁ ++ x :: l₂) x =
      ⟨.set b ((l₁ ++ x :: l₂).length == 1), l₁.getLast?, l₂.head?⟩ := by
  have hx : x ∉ l₁ := fun hm => (List.nodup_append.mp h).2.2 x hm x List.mem_cons_self rfl
  rw [ownerRecord, prevIn_middle h, nextIn_middle hx]

/-- The two assignments of `detach` to the neighbours of `x`, seen at any other owner. The bit of
that owner was clear, as there were two. -/
theorem ownerRecord_remove (h : (l₁ ++ x :: l₂).Nodup) (hz : z ∈ l₁ ++ l₂) :
    (⟨.set b false, prevIn (l₁ ++ l₂) z, nextIn (l₁ ++ l₂) z⟩ : StringObject) =
      ⟨(ownerRecord b (l₁ ++ x :: l₂) z).block,
        if l₂.head? = some z then l₁.getLast? else (ownerRecord b (l₁ ++ x :: l₂) z).previous,
        if l₁.getLast? = some z then l₂.head? else (ownerRecord b (l₁ ++ x :: l₂) z).next⟩ := by
  have hzx : z ≠ x := by
    rintro rfl
    exact (List.nodup_cons.mp (List.nodup_middle.mp h)).1 hz
  have hlen : ((l₁ ++ x :: l₂).length == 1) = false := by
    have := List.length_pos_of_mem hz
    simp only [List.length_append, List.length_cons] at this ⊢
    simp
    omega
  rw [nextIn_remove h hzx, prevIn_remove h hzx, ownerRecord, hlen]

end Remove

/-! ## Bookkeeping -/

/-- Which block each `String` points to (0 for none), and each block's owners in the order of the
chain and characters, the final zero included. -/
@[ext]
structure Ownership where
  pointer : ObjectId → Option UIntPtr
  owners : UIntPtr → List ObjectId
  data : UIntPtr → Option (List UInt8)
  nodup : ∀ b, (owners b).Nodup
  mem_owners : ∀ b x, x ∈ owners b ↔ b ≠ 0 ∧ pointer x = some b
  isSome_data : ∀ b x, x ∈ owners b → (data b).isSome
  ne_zero : ∀ b d, data b = some d → b ≠ 0
  even : ∀ b d, data b = some d → b.toNat % 2 = 0
  terminated : ∀ b d, data b = some d → d.getLast? = some 0
  size_lt : ∀ b d, data b = some d → Heap.sizeofBlock.toNat + d.length < 2 ^ 63

namespace Ownership

/-- A fact about the characters of every block, after one block more. -/
theorem forall_update {p : UIntPtr → List UInt8 → Prop} {data : UIntPtr → Option (List UInt8)}
    {b : UIntPtr} {d : List UInt8} (hb : p b d) (h : ∀ c e, data c = some e → p c e) :
    ∀ c e, Function.update data b (some d) c = some e → p c e := by
  intro c e hc
  by_cases hcb : c = b
  · subst hcb
    rw [Function.update_self] at hc
    exact Option.some.inj hc ▸ hb
  · rw [Function.update_of_ne hcb] at hc
    exact h c e hc

variable (A : Ownership)

theorem owners_zero : A.owners 0 = [] :=
  List.eq_nil_iff_forall_not_mem.mpr fun x hx => ((A.mem_owners 0 x).mp hx).1 rfl

variable {A}

theorem mem_owners_of_pointer {x : ObjectId} {b : UIntPtr} (hx : A.pointer x = some b)
    (hb : b ≠ 0) : x ∈ A.owners b :=
  (A.mem_owners b x).mpr ⟨hb, hx⟩

theorem pointer_of_mem {x : ObjectId} {b : UIntPtr} (hx : x ∈ A.owners b) :
    A.pointer x = some b :=
  ((A.mem_owners b x).mp hx).2

theorem even_of_pointer {x : ObjectId} {b : UIntPtr} (hx : A.pointer x = some b) :
    b.toNat % 2 = 0 := by
  by_cases hb : b = 0
  · rw [hb]; rfl
  · obtain ⟨d, hd⟩ := Option.isSome_iff_exists.mp
      (A.isSome_data b x (mem_owners_of_pointer hx hb))
    exact A.even b d hd

theorem owners_of_data_none {b : UIntPtr} (hb : A.data b = none) : A.owners b = [] :=
  List.eq_nil_iff_forall_not_mem.mpr fun x hx => by
    have := A.isSome_data b x hx
    rw [hb] at this
    exact Bool.noConfusion this

/-- No object is in two owner lists. -/
theorem notMem_owners {x : ObjectId} {b c : UIntPtr} (hx : A.pointer x = some c) (hbc : c ≠ b) :
    x ∉ A.owners b := fun hm =>
  hbc (Option.some.inj (hx.symm.trans (pointer_of_mem hm)))

theorem notMem_owners_of_null (A : Ownership) {x : ObjectId} (hx : A.pointer x = some 0)
    (b : UIntPtr) : x ∉ A.owners b := fun hm =>
  ((A.mem_owners b x).mp hm).1 (Option.some.inj (((A.mem_owners b x).mp hm).2.symm.trans hx))

theorem of_ite_none {α : Type} {p : Prop} [Decidable p] {o : Option α} {d : α}
    (h : (if p then none else o) = some d) : o = some d := by
  split at h
  · cases h
  · exact h

/-! ## The heap of a bookkeeping -/

variable (A)

/-- The heap that `A` describes. -/
def heap (t : DebugTrace) : Heap :=
  ⟨fun x => (A.pointer x).map fun b => ownerRecord b (A.owners b) x,
    fun b => (A.data b).map fun d => ⟨(A.owners b).head?, d⟩, t⟩

variable {A} {t : DebugTrace}

theorem heap_strings {x : ObjectId} {b : UIntPtr} (hx : A.pointer x = some b) :
    (A.heap t).strings x = some (ownerRecord b (A.owners b) x) := by
  change (A.pointer x).map _ = _
  rw [hx, Option.map_some]

theorem heap_blocks {b : UIntPtr} {d : List UInt8} (hb : A.data b = some d) :
    (A.heap t).blocks b = some ⟨(A.owners b).head?, d⟩ := by
  change (A.data b).map _ = _
  rw [hb, Option.map_some]

@[simp] theorem isSome_heap_strings (x : ObjectId) :
    ((A.heap t).strings x).isSome = (A.pointer x).isSome := Option.isSome_map

@[simp] theorem isSome_heap_blocks (b : UIntPtr) :
    ((A.heap t).blocks b).isSome = (A.data b).isSome := Option.isSome_map

theorem pointer_ownerRecord {x : ObjectId} {b : UIntPtr} (hx : A.pointer x = some b)
    (l : List ObjectId) (z : ObjectId) : (ownerRecord b l z).block.pointer = b :=
  TaggedBlockPointer.pointer_set (even_of_pointer hx) _

theorem unique_ownerRecord {x : ObjectId} {b : UIntPtr} (hx : A.pointer x = some b)
    (l : List ObjectId) (z : ObjectId) : (ownerRecord b l z).block.unique = (l.length == 1) :=
  TaggedBlockPointer.unique_set (even_of_pointer hx) _

theorem heap_strings_null {x : ObjectId} (hx : A.pointer x = some 0) :
    (A.heap t).strings x = some .null := by
  rw [heap_strings hx, owners_zero, ownerRecord_zero]

/-! ## Objects and blocks that come and go -/

/-- An object that is null or absent, before and after, is no owner. -/
theorem mem_owners_update (A : Ownership) {x : ObjectId} {p : Option UIntPtr}
    (hx : ∀ b, A.pointer x = some b → b = 0) (hp : ∀ b, p = some b → b = 0) (b : UIntPtr)
    (z : ObjectId) : z ∈ A.owners b ↔ b ≠ 0 ∧ Function.update A.pointer x p z = some b := by
  rw [A.mem_owners]
  by_cases hz : z = x
  · subst hz
    rw [Function.update_self]
    constructor
    · rintro ⟨hb, h⟩
      exact absurd (hx b h) hb
    · rintro ⟨hb, h⟩
      exact absurd (hp b h) hb
  · rw [Function.update_of_ne hz]

/-- A null `String` at the unused address `x`. -/
def addString (A : Ownership) (x : ObjectId) (hx : A.pointer x = none) : Ownership :=
  { A with
    pointer := Function.update A.pointer x (some 0)
    mem_owners := A.mem_owners_update (by simp [hx]) (by simp) }

/-- The null `String` at `x` ends its lifetime. -/
def removeString (A : Ownership) (x : ObjectId) (hx : A.pointer x = some 0) : Ownership :=
  { A with
    pointer := Function.update A.pointer x none
    mem_owners := A.mem_owners_update (by simp [hx]) (by simp) }

/-- What `make_block` needs of the address it gets and of the characters it stores. -/
structure Fresh (A : Ownership) (b : UIntPtr) (d : List UInt8) : Prop where
  unused : A.data b = none
  ne_zero : b ≠ 0
  even : b.toNat % 2 = 0
  terminated : d.getLast? = some 0
  size_lt : Heap.sizeofBlock.toNat + d.length < 2 ^ 63

theorem Fresh.addString {A : Ownership} {b : UIntPtr} {d : List UInt8} (hb : A.Fresh b d)
    {x : ObjectId} (hx : A.pointer x = none) : (A.addString x hx).Fresh b d :=
  ⟨hb.unused, hb.ne_zero, hb.even, hb.terminated, hb.size_lt⟩

/-- A block without owners at `b`. -/
def addBlock (A : Ownership) (b : UIntPtr) (d : List UInt8) (hb : A.Fresh b d) : Ownership :=
  { A with
    data := Function.update A.data b (some d)
    isSome_data := by
      intro c x hx
      by_cases hc : c = b
      · rw [hc, Function.update_self]
        rfl
      · rw [Function.update_of_ne hc]
        exact A.isSome_data c x hx
    ne_zero := forall_update hb.ne_zero A.ne_zero
    even := forall_update hb.even A.even
    terminated := forall_update hb.terminated A.terminated
    size_lt := forall_update hb.size_lt A.size_lt }

theorem pointer_addString_self {A : Ownership} {x : ObjectId} (hx : A.pointer x = none) :
    (A.addString x hx).pointer x = some 0 :=
  Function.update_self ..

theorem pointer_addString_of_ne {A : Ownership} {x z : ObjectId} (hx : A.pointer x = none)
    (hz : z ≠ x) : (A.addString x hx).pointer z = A.pointer z :=
  Function.update_of_ne hz ..

theorem addBlock_pointer {A : Ownership} {b : UIntPtr} {d : List UInt8} (hb : A.Fresh b d) :
    (A.addBlock b d hb).pointer = A.pointer := rfl

theorem isSome_addBlock {A : Ownership} {b : UIntPtr} {d : List UInt8} (hb : A.Fresh b d) :
    ((A.addBlock b d hb).data b).isSome := by
  change (Function.update A.data b (some d) b).isSome
  rw [Function.update_self]
  rfl

/-- The null `String` at `x` becomes the first owner of `b`. -/
def attach (A : Ownership) (x : ObjectId) (b : UIntPtr) (hx : A.pointer x = some 0)
    (hb : (A.data b).isSome) : Ownership :=
  { A with
    pointer := Function.update A.pointer x (some b)
    owners := Function.update A.owners b (x :: A.owners b)
    nodup := by
      intro c
      by_cases hc : c = b
      · subst hc
        rw [Function.update_self, List.nodup_cons]
        exact ⟨A.notMem_owners_of_null hx c, A.nodup c⟩
      · rw [Function.update_of_ne hc]
        exact A.nodup c
    mem_owners := by
      obtain ⟨d, hd⟩ := Option.isSome_iff_exists.mp hb
      intro c z
      by_cases hz : z = x
      · subst hz
        rw [Function.update_self]
        by_cases hc : c = b
        · simpa [hc] using A.ne_zero b d hd
        · rw [Function.update_of_ne hc]
          simp [A.notMem_owners_of_null hx c, Ne.symm hc]
      · rw [Function.update_of_ne hz, ← A.mem_owners]
        by_cases hc : c = b
        · simp [hc, hz]
        · rw [Function.update_of_ne hc]
    isSome_data := by
      intro c z hz
      by_cases hc : c = b
      · exact hc ▸ hb
      · rw [Function.update_of_ne hc] at hz
        exact A.isSome_data c z hz }

/-- The `String` at `x` becomes null, and a block without owners disappears. -/
def detach (A : Ownership) (x : ObjectId) : Ownership where
  pointer := fun z => if z = x then (A.pointer x).map fun _ => 0 else A.pointer z
  owners := fun b => (A.owners b).erase x
  data := fun b => if A.owners b = [x] then none else A.data b
  nodup := fun b => (A.nodup b).erase x
  mem_owners := by
    intro b z
    rw [(A.nodup b).mem_erase_iff, A.mem_owners]
    by_cases hz : z = x
    · subst hz
      simp only [ne_eq, not_true_eq_false, false_and, if_pos, Option.map_eq_some_iff, false_iff]
      rintro ⟨hb, c, -, hc⟩
      exact hb hc.symm
    · simp [hz]
  isSome_data := by
    intro b z hz
    have hmem : z ∈ A.owners b := List.mem_of_mem_erase hz
    rw [if_neg]
    · exact A.isSome_data b z hmem
    · intro hx
      rw [hx, List.erase_cons_head] at hz
      exact List.not_mem_nil hz
  ne_zero := fun b d hd => A.ne_zero b d (of_ite_none hd)
  even := fun b d hd => A.even b d (of_ite_none hd)
  terminated := fun b d hd => A.terminated b d (of_ite_none hd)
  size_lt := fun b d hd => A.size_lt b d (of_ite_none hd)

theorem detach_pointer (A : Ownership) (x z : ObjectId) :
    (A.detach x).pointer z = if z = x then (A.pointer x).map fun _ => 0 else A.pointer z := rfl

theorem detach_owners (A : Ownership) (x : ObjectId) (b : UIntPtr) :
    (A.detach x).owners b = (A.owners b).erase x := rfl

theorem detach_data (A : Ownership) (x : ObjectId) (b : UIntPtr) :
    (A.detach x).data b = if A.owners b = [x] then none else A.data b := rfl

/-- The identities `x` and `y` are exchanged. -/
def exchange (A : Ownership) (x y : ObjectId) : Ownership :=
  { A with
    pointer := fun z => A.pointer (Equiv.swap x y z)
    owners := fun b => (A.owners b).map (Equiv.swap x y)
    nodup := fun b => (A.nodup b).map (Equiv.swap x y).injective
    mem_owners := by
      intro b z
      rw [← A.mem_owners]
      constructor
      · intro hz
        obtain ⟨w, hw, rfl⟩ := List.mem_map.mp hz
        rwa [Equiv.swap_apply_self]
      · intro hz
        exact List.mem_map.mpr ⟨_, hz, Equiv.swap_apply_self x y z⟩
    isSome_data := by
      intro b z hz
      obtain ⟨w, hw, -⟩ := List.mem_map.mp hz
      exact A.isSome_data b w hw }

theorem exchange_pointer (A : Ownership) (x y z : ObjectId) :
    (A.exchange x y).pointer z = A.pointer (Equiv.swap x y z) := rfl

theorem exchange_owners (A : Ownership) (x y : ObjectId) (b : UIntPtr) :
    (A.exchange x y).owners b = (A.owners b).map (Equiv.swap x y) := rfl

end Ownership

end Doost.Strings
