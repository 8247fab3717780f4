import Doost.Lists.NodeHeap
import Mathlib.Data.List.Nodup
import Mathlib.Logic.Equiv.Basic

/-!
# Heaps that hold chains of nodes

A `Chains` says which lists exist, with which allocator, which nodes each of them owns in which
order, and which nodes `release_nodes` has given up. `Represents` relates it to a heap: every list's
chain is linked from its head pointer, has the length its size says and comes from an equal
allocator, no node is in two places, and every cell that is allocated is a node of some chain or has
been given up. The lemmas are the changes of a heap that keep it in this form.
-/

namespace Doost.Lists

open Program

variable {P A T : Type}

/-- A node of a chain: its address, the allocator that handed it out, and its element. -/
structure Entry (P A T : Type) where
  addr : P
  allocator : A
  value : T
deriving DecidableEq, Repr

/-- The lists that exist, the nodes that each one owns, and those that lists gave up. -/
structure Chains (P A T : Type) where
  allocator : ListId → Option A
  chain : ListId → List (Entry P A T)
  released : P → Prop

/-- The pointer to the first node of a chain. -/
def first (l : List (Entry P A T)) : Option P := l.head?.map Entry.addr

/-- The addresses of the nodes of a chain. -/
def addrs (l : List (Entry P A T)) : List P := l.map Entry.addr

@[simp] theorem first_cons (e : Entry P A T) (l : List (Entry P A T)) :
    first (e :: l) = some e.addr := rfl

@[simp] theorem addrs_nil : addrs ([] : List (Entry P A T)) = [] := rfl

@[simp] theorem addrs_cons (e : Entry P A T) (l : List (Entry P A T)) :
    addrs (e :: l) = e.addr :: addrs l := rfl

@[simp] theorem addrs_append (l l' : List (Entry P A T)) : addrs (l ++ l') = addrs l ++ addrs l' :=
  List.map_append

theorem mem_addrs_of_mem {e : Entry P A T} {l : List (Entry P A T)} (h : e ∈ l) :
    e.addr ∈ addrs l :=
  List.mem_map_of_mem h

/-! ## Linked chains -/

section Linked

/-- The cells hold the nodes of `l`, each linked to the next and the last to none. -/
def Linked (cells : P → Option (A × Option (Node P T))) : List (Entry P A T) → Prop
  | [] => True
  | e :: l => cells e.addr = some (e.allocator, some ⟨first l, e.value⟩) ∧ Linked cells l

variable {cells cells' : P → Option (A × Option (Node P T))} {l l' : List (Entry P A T)}

theorem Linked.congr (h : Linked cells l) (hl : ∀ p ∈ addrs l, cells' p = cells p) :
    Linked cells' l := by
  induction l with
  | nil => trivial
  | cons e l ih =>
    refine ⟨(hl e.addr List.mem_cons_self).trans h.1, ih h.2 fun p hp => ?_⟩
    exact hl p (List.mem_cons_of_mem _ hp)

theorem Linked.of_append (h : Linked cells (l ++ l')) : Linked cells l' := by
  induction l with
  | nil => exact h
  | cons e l ih => exact ih h.2

/-- The cell of a node, which points to the node after it. -/
theorem Linked.cell {e : Entry P A T} (h : Linked cells (l ++ e :: l')) :
    cells e.addr = some (e.allocator, some ⟨first l', e.value⟩) :=
  (Linked.of_append h).1

end Linked

/-! ## Representation -/

/-- The addresses that `allocate` will return are different, free and accessible. -/
structure Supplied (h : NodeHeap P A T) : Prop where
  fresh : ∀ p, some p ∈ h.allocations → h.cells p = none ∧ h.accessible p = true
  distinct : (h.allocations.filterMap id).Nodup

/-- The heap `h` holds exactly the chains `C`, and can go on allocating. -/
structure Represents (tr : Traits A T) (h : NodeHeap P A T) (C : Chains P A T) : Prop where
  lists : ∀ i, h.lists i =
    (C.allocator i).map fun a => ⟨first (C.chain i), (C.chain i).length, a⟩
  absent : ∀ i, C.allocator i = none → C.chain i = []
  linked : ∀ i, Linked h.cells (C.chain i)
  owned : ∀ p x, h.cells p = some x → C.released p ∨ ∃ i, p ∈ addrs (C.chain i)
  nodup : ∀ i, (addrs (C.chain i)).Nodup
  apart : ∀ i j p, p ∈ addrs (C.chain i) → p ∈ addrs (C.chain j) → i = j
  equal : ∀ i a e, C.allocator i = some a → e ∈ C.chain i → tr.equal e.allocator a = true
  supplied : Supplied h

namespace Represents

variable {tr : Traits A T} {h h' : NodeHeap P A T} {C : Chains P A T} {i j : ListId} {a b : A}

theorem list (hR : Represents tr h C) (ha : C.allocator i = some a) :
    h.lists i = some ⟨first (C.chain i), (C.chain i).length, a⟩ := by
  rw [hR.lists, ha, Option.map_some]

/-- An address whose cell is free is in no chain. -/
theorem notMem_of_none (hR : Represents tr h C) {p : P} (hp : h.cells p = none) :
    p ∉ addrs (C.chain i) := by
  intro hm
  obtain ⟨e, he, rfl⟩ := List.mem_map.mp hm
  obtain ⟨l, l', hl⟩ := List.append_of_mem he
  have hcell := (hl ▸ hR.linked i : Linked h.cells (l ++ e :: l')).cell
  cases hp.symm.trans hcell

end Represents

/-! ## Changing one chain -/

def Chains.setChain (C : Chains P A T) (i : ListId) (l : List (Entry P A T)) : Chains P A T :=
  { C with chain := Function.update C.chain i l }

def Chains.setAllocator (C : Chains P A T) (i : ListId) (a : Option A) : Chains P A T :=
  { C with allocator := Function.update C.allocator i a }

@[simp] theorem Chains.setChain_allocator (C : Chains P A T) (i : ListId)
    (l : List (Entry P A T)) : (C.setChain i l).allocator = C.allocator := rfl

@[simp] theorem Chains.setChain_self (C : Chains P A T) (i : ListId) (l : List (Entry P A T)) :
    (C.setChain i l).chain i = l :=
  Function.update_self ..

theorem Chains.setChain_of_ne (C : Chains P A T) {i j : ListId} (hj : j ≠ i)
    (l : List (Entry P A T)) : (C.setChain i l).chain j = C.chain j :=
  Function.update_of_ne hj ..

@[simp] theorem Chains.setChain_setChain (C : Chains P A T) (i : ListId)
    (l l' : List (Entry P A T)) : (C.setChain i l).setChain i l' = C.setChain i l' := by
  simp [Chains.setChain]

@[simp] theorem Chains.setChain_eq_self (C : Chains P A T) (i : ListId) :
    C.setChain i (C.chain i) = C := by
  simp [Chains.setChain]

@[simp] theorem Chains.setAllocator_chain (C : Chains P A T) (i : ListId) (a : Option A) :
    (C.setAllocator i a).chain = C.chain := rfl

@[simp] theorem Chains.setAllocator_self (C : Chains P A T) (i : ListId) (a : Option A) :
    (C.setAllocator i a).allocator i = a :=
  Function.update_self ..

theorem Chains.setAllocator_of_ne (C : Chains P A T) {i j : ListId} (hj : j ≠ i) (a : Option A) :
    (C.setAllocator i a).allocator j = C.allocator j :=
  Function.update_of_ne hj ..

namespace Represents

variable {tr : Traits A T} {h h' : NodeHeap P A T} {C C' : Chains P A T} {i j : ListId} {a b : A}
  {l : List (Entry P A T)}

/-- **One chain changes.** Its old nodes are gone or stay in it, and its new ones were free. -/
theorem setChain (hR : Represents tr h C) (ha : C.allocator i = some a)
    (hlists : h'.lists = Function.update h.lists i (some ⟨first l, l.length, a⟩))
    (hkeep : ∀ p, p ∉ addrs (C.chain i) → p ∉ addrs l → h'.cells p = h.cells p)
    (hnew : ∀ p ∈ addrs l, p ∈ addrs (C.chain i) ∨ h.cells p = none)
    (hgone : ∀ p ∈ addrs (C.chain i), p ∉ addrs l → h'.cells p = none)
    (hlinked : Linked h'.cells l) (hnodup : (addrs l).Nodup)
    (hequal : ∀ e ∈ l, tr.equal e.allocator a = true) (hsupplied : Supplied h') :
    Represents tr h' (C.setChain i l) := by
  have hother : ∀ j, j ≠ i → ∀ p ∈ addrs (C.chain j), p ∉ addrs l := by
    intro j hj p hp hl
    rcases hnew p hl with hi | hnone
    · exact hj (hR.apart j i p hp hi)
    · exact hR.notMem_of_none hnone hp
  refine ⟨fun j => ?_, fun j hj => ?_, fun j => ?_, fun p x hx => ?_, fun j => ?_,
    fun j k p hj hk => ?_, fun j b e hb he => ?_, hsupplied⟩
  · by_cases hji : j = i
    · subst hji
      rw [hlists, Function.update_self, C.setChain_self, C.setChain_allocator, ha, Option.map_some]
    · rw [hlists, Function.update_of_ne hji, C.setChain_of_ne hji, hR.lists]
      rfl
  · by_cases hji : j = i
    · subst hji
      cases ha.symm.trans hj
    · rw [C.setChain_of_ne hji, hR.absent j hj]
  · by_cases hji : j = i
    · subst hji
      rwa [C.setChain_self]
    · rw [C.setChain_of_ne hji]
      refine (hR.linked j).congr fun p hp => hkeep p (fun hi => ?_) (hother j hji p hp)
      exact hji (hR.apart j i p hp hi)
  · by_cases hl : p ∈ addrs l
    · exact .inr ⟨i, by rwa [C.setChain_self]⟩
    · by_cases hi : p ∈ addrs (C.chain i)
      · cases (hgone p hi hl).symm.trans hx
      · rw [hkeep p hi hl] at hx
        refine (hR.owned p x hx).imp_right fun howned => ?_
        obtain ⟨j, hj⟩ := howned
        have hji : j ≠ i := by
          rintro rfl
          exact hi hj
        exact ⟨j, by rwa [C.setChain_of_ne hji]⟩
  · by_cases hji : j = i
    · subst hji
      rwa [C.setChain_self]
    · rw [C.setChain_of_ne hji]
      exact hR.nodup j
  · by_cases hji : j = i <;> by_cases hki : k = i
    · exact hji.trans hki.symm
    · subst hji
      rw [C.setChain_self] at hj
      rw [C.setChain_of_ne hki] at hk
      exact absurd hj (hother k hki p hk)
    · subst hki
      rw [C.setChain_self] at hk
      rw [C.setChain_of_ne hji] at hj
      exact absurd hk (hother j hji p hj)
    · rw [C.setChain_of_ne hji] at hj
      rw [C.setChain_of_ne hki] at hk
      exact hR.apart j k p hj hk
  · rw [C.setChain_allocator] at hb
    by_cases hji : j = i
    · subst hji
      rw [C.setChain_self] at he
      obtain rfl := Option.some.inj (ha.symm.trans hb)
      exact hequal e he
    · rw [C.setChain_of_ne hji] at he
      exact hR.equal j b e hb he

/-- **Chains change hands.** The cells stay, and every chain has one list before and after. -/
theorem permute (hR : Represents tr h C) (σ : Equiv.Perm ListId)
    (hchain : ∀ i, C'.chain i = C.chain (σ i)) (hreleased : C'.released = C.released)
    (hcells : h'.cells = h.cells)
    (hlists : ∀ i, h'.lists i =
      (C'.allocator i).map fun a => ⟨first (C'.chain i), (C'.chain i).length, a⟩)
    (habsent : ∀ i, C'.allocator i = none → C'.chain i = [])
    (hequal : ∀ i a e, C'.allocator i = some a → e ∈ C'.chain i → tr.equal e.allocator a = true)
    (hsupplied : Supplied h') : Represents tr h' C' := by
  refine ⟨hlists, habsent, fun i => ?_, fun p x hx => ?_, fun i => ?_, fun i j p hi hj => ?_,
    hequal, hsupplied⟩
  · rw [hcells, hchain]
    exact hR.linked _
  · rw [hcells] at hx
    rw [hreleased]
    refine (hR.owned p x hx).imp_right fun howned => ?_
    obtain ⟨i, hi⟩ := howned
    refine ⟨σ.symm i, ?_⟩
    rwa [hchain, Equiv.apply_symm_apply]
  · rw [hchain]
    exact hR.nodup _
  · rw [hchain] at hi hj
    exact σ.injective (hR.apart _ _ p hi hj)

end Represents

end Doost.Lists
