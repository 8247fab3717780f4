import Doost.Lists.NodeSpecs

/-!
# What the private helpers do to chains

One theorem for each helper of `List`: `clear_ends`, `appendFrom_ends` (for `copy_from` and
`move_values_from`), `stealNodesFrom_ends` and `swapNodes_ends`, over heaps that hold chains, for
every answer of the allocator and of the elements' constructors.
-/

namespace Doost.Lists

open Program

variable {P A T : Type} [DecidableEq P]

variable {tr : Traits A T} {h h' : NodeHeap P A T} {C : Chains P A T} {i j : ListId} {p : P} {a : A}
  {v : T} {e : Entry P A T} {l : List (Entry P A T)}

omit [DecidableEq P] in
@[simp] theorem NodeHeap.setList_setList (h : NodeHeap P A T) (i : ListId) (o o') :
    (h.setList i o).setList i o' = h.setList i o' := by
  simp [NodeHeap.setList]

omit [DecidableEq P] in
theorem NodeHeap.setList_lists_of_ne (hij : i ≠ j) (o) :
    (h.setList j o).lists i = h.lists i :=
  Function.update_of_ne hij ..

omit [DecidableEq P] in
theorem NodeHeap.setList_comm (hij : i ≠ j) (o o') :
    (h.setList i o).setList j o' = (h.setList j o').setList i o := by
  simp only [NodeHeap.setList, Function.update_comm hij]

/-! ## A node joins a chain -/

/-- The unowned node goes to the front. -/
theorem Orphan.push (hO : Orphan tr h C p (a, some ⟨first (C.chain i), v⟩))
    (ha : C.allocator i = some a) (hequal : tr.equal a a = true) :
    Represents tr (h.setList i (some ⟨some p, (C.chain i).length + 1, a⟩))
      (C.setChain i (⟨p, a, v⟩ :: C.chain i)) := by
  have hp : p ∉ addrs (C.chain i) := hO.rest.notMem_of_none (h.setCell_cells_self p none)
  refine hO.rest.setChain ha rfl (fun q hq hq' => ?_) (fun q hq => ?_) (fun q hq hq' => ?_)
    ⟨hO.cell, ?_⟩ ?_ (fun e he => ?_) ⟨fun q hq => ?_, hO.rest.supplied.distinct⟩
  · have hqp : q ≠ p := fun h => hq' (h ▸ List.mem_cons_self)
    rw [NodeHeap.setCell_cells_of_ne h hqp]
    rfl
  · rcases List.mem_cons.mp hq with rfl | hq
    · exact .inr (h.setCell_cells_self _ none)
    · exact .inl hq
  · exact absurd (List.mem_cons_of_mem _ hq) hq'
  · refine (hO.rest.linked i).congr fun q hq => ?_
    have hqp : q ≠ p := fun h => hp (h ▸ hq)
    rw [NodeHeap.setCell_cells_of_ne h hqp]
    rfl
  · exact List.nodup_cons.mpr ⟨hp, hO.rest.nodup i⟩
  · rcases List.mem_cons.mp he with rfl | he
    · exact hequal
    · exact hO.rest.equal i a e ha he
  · have hqp : q ≠ p := by
      rintro rfl
      exact hO.taken hq
    have hfree := hO.rest.supplied.fresh q hq
    rw [NodeHeap.setCell_cells_of_ne h hqp] at hfree
    exact hfree

/-- `tail` names the pointer behind the last node of `l`. -/
def Tail.EndOf (tail : Tail P) (l : List (Entry P A T)) : Prop :=
  tail = l.getLast?.elim .head fun e => .next e.addr

omit [DecidableEq P] in
/-- A chain with one more node at its end. -/
theorem Linked.concat {cells cells' : P → Option (A × Option (Node P T))}
    (hl : Linked cells (l ++ [e])) (hkeep : ∀ q ∈ addrs l, cells' q = cells q)
    (he : cells' e.addr = some (e.allocator, some ⟨some p, e.value⟩))
    (hp : cells' p = some (a, some ⟨none, v⟩)) :
    Linked cells' (l ++ [e] ++ [⟨p, a, v⟩]) := by
  induction l with
  | nil => exact ⟨he, hp, trivial⟩
  | cons f l ih =>
    refine ⟨(hkeep f.addr List.mem_cons_self).trans (hl.1.trans ?_),
      ih hl.2 fun q hq => hkeep q (List.mem_cons_of_mem _ hq)⟩
    cases l <;> rfl

/-- The unowned node goes behind the last node `e`, whose link is set to it. -/
theorem Orphan.concat (hO : Orphan tr h C p (a, some ⟨none, v⟩)) (ha : C.allocator i = some a)
    (hequal : tr.equal a a = true) (hl : C.chain i = l ++ [e]) :
    Represents tr ((h.mapNode e.addr fun n => { n with next := some p }).setList i
        (some ⟨first (C.chain i), (C.chain i).length + 1, a⟩))
      (C.setChain i (C.chain i ++ [⟨p, a, v⟩])) := by
  have hfresh : ∀ j, p ∉ addrs (C.chain j) := fun j =>
    hO.rest.notMem_of_none (h.setCell_cells_self p none)
  have hmem : e.addr ∈ addrs (C.chain i) := mem_addrs_of_mem (hl ▸ by simp)
  have hpe : p ≠ e.addr := fun hp => hfresh i (hp ▸ hmem)
  have hcells : ∀ q, q ≠ e.addr → q ≠ p →
      (h.mapNode e.addr fun n => { n with next := some p }).cells q =
        (h.setCell p none).cells q := by
    intro q hqe hqp
    rw [NodeHeap.mapNode_cells_of_ne h hqe, NodeHeap.setCell_cells_of_ne h hqp]
  have hmem_new : ∀ q, q ∈ addrs (C.chain i ++ [⟨p, a, v⟩]) ↔ q ∈ addrs (C.chain i) ∨ q = p := by
    simp [addrs]
  have hnd := hO.rest.nodup i
  refine hO.rest.setChain ha ?_ (fun q hq hq' => ?_) (fun q hq => ?_) (fun q hq hq' => ?_) ?_ ?_
    (fun f hf => ?_) ⟨fun q hq => ?_, hO.rest.supplied.distinct⟩
  · rw [hl, List.append_assoc, List.length_append, List.length_append]
    cases l <;> rfl
  · rw [hmem_new, not_or] at hq'
    exact hcells q (fun h => hq (h ▸ hmem)) hq'.2
  · rcases (hmem_new q).mp hq with hq | rfl
    · exact .inl hq
    · exact .inr (h.setCell_cells_self _ none)
  · exact absurd ((hmem_new q).mpr (.inl hq)) hq'
  · have hlinked := hO.rest.linked i
    rw [hl] at hlinked hnd ⊢
    refine hlinked.concat (fun q hq => ?_) ?_ ?_
    · refine hcells q (fun hqe => ?_) fun hqp => hfresh i ?_
      · rw [addrs_append, List.nodup_append] at hnd
        exact hnd.2.2 q hq e.addr (by simp) hqe
      · rw [hl, addrs_append, ← hqp]
        exact List.mem_append_left _ hq
    · have hcell := (hlinked : Linked _ (l ++ e :: [])).cell
      rw [NodeHeap.setCell_cells_of_ne h (Ne.symm hpe)] at hcell
      rw [NodeHeap.setList_cells, NodeHeap.mapNode_cells_self, hcell]
      rfl
    · rw [NodeHeap.setList_cells, NodeHeap.mapNode_cells_of_ne h hpe]
      exact hO.cell
  · rw [addrs_append, List.nodup_append]
    refine ⟨hnd, by simp, fun q hq q' hq' => ?_⟩
    rintro rfl
    obtain rfl : q = p := by simpa using hq'
    exact hfresh i hq
  · rcases List.mem_append.mp hf with hf | hf
    · exact hO.rest.equal i a f ha hf
    · obtain rfl := List.mem_singleton.mp hf
      exact hequal
  · have hfree := hO.rest.supplied.fresh q hq
    have hqp : q ≠ p := by
      rintro rfl
      exact hO.taken hq
    refine ⟨?_, hfree.2⟩
    rw [NodeHeap.setList_cells, hcells q (fun hqe => ?_) hqp]
    · exact hfree.1
    · exact hO.rest.notMem_of_none hfree.1 (hqe ▸ hmem)

/-- `*tail = copy` in `copy_from`, where the next statement counts the node. -/
theorem assignTail_run {tail : Tail P} (hO : Orphan tr h C p (a, some ⟨none, v⟩))
    (ha : C.allocator i = some a) (hequal : tr.equal a a = true) (htail : tail.EndOf (C.chain i)) :
    ∃ h₁ head, assignTail i tail p h = some (.ok (), h₁) ∧
      h₁.lists i = some ⟨head, (C.chain i).length, a⟩ ∧
      Represents tr (h₁.setList i (some ⟨head, (C.chain i).length + 1, a⟩))
        (C.setChain i (C.chain i ++ [⟨p, a, v⟩])) ∧
      h₁.allocations = h.allocations ∧ h₁.constructions = h.constructions := by
  have hlist : h.lists i = some ⟨first (C.chain i), (C.chain i).length, a⟩ := hO.rest.list ha
  rcases List.eq_nil_or_concat (C.chain i) with hnil | ⟨l, e, hl⟩
  · rw [hnil] at htail
    obtain rfl : tail = .head := htail
    refine ⟨_, some p, modifyObject_run hlist _, NodeHeap.setList_lists_self .., ?_, rfl, rfl⟩
    have hO' : Orphan tr h C p (a, some ⟨first (C.chain i), v⟩) := by rwa [hnil]
    have hpush := hO'.push ha hequal
    rw [NodeHeap.setList_setList]
    rwa [hnil] at hpush ⊢
  · rw [List.concat_eq_append] at hl
    have htail' : tail = .next e.addr := by
      rw [hl] at htail
      simpa [Tail.EndOf] using htail
    have he : e ∈ C.chain i := hl ▸ by simp
    obtain ⟨-, next, hnode⟩ := hO.node?_of_mem he
    subst htail'
    exact ⟨_, _, modifyNode_run hnode _, hlist, hO.concat ha hequal hl, rfl, rfl⟩

/-! ## A node leaves a chain -/

/-- The first node of a chain is gone. -/
theorem Represents.removeFirst (hR : Represents tr h C) (ha : C.allocator i = some a)
    (hl : C.chain i = e :: l)
    (hlists : h'.lists = Function.update h.lists i (some ⟨first l, l.length, a⟩))
    (hcells : h'.cells = Function.update h.cells e.addr none)
    (hallocations : h'.allocations = h.allocations) (haccessible : h'.accessible = h.accessible) :
    Represents tr h' (C.setChain i l) := by
  have hnd := hR.nodup i
  have hlinked := hR.linked i
  rw [hl] at hnd hlinked
  obtain ⟨he, hnd⟩ := List.nodup_cons.mp hnd
  have hkeep : ∀ q, q ≠ e.addr → h'.cells q = h.cells q := fun q hq => by
    rw [hcells, Function.update_of_ne hq]
  refine hR.setChain ha hlists (fun q hq _ => hkeep q ?_) (fun q hq => .inl ?_)
    (fun q hq hq' => ?_) (hlinked.2.congr fun q hq => hkeep q ?_) hnd (fun f hf => ?_)
    ⟨fun q hq => ?_, hallocations ▸ hR.supplied.distinct⟩
  · rintro rfl
    exact hq (hl ▸ List.mem_cons_self)
  · exact hl ▸ List.mem_cons_of_mem _ hq
  · have hqe : q = e.addr := by
      rw [hl] at hq
      exact (List.mem_cons.mp hq).resolve_right hq'
    rw [hcells, hqe, Function.update_self]
  · rintro rfl
    exact he hq
  · exact hR.equal i a f ha (hl ▸ List.mem_cons_of_mem _ hf)
  · have hfree := hR.supplied.fresh q (hallocations ▸ hq)
    refine ⟨?_, haccessible ▸ hfree.2⟩
    by_cases hqe : q = e.addr
    · rw [hcells, hqe, Function.update_self]
    · rw [hkeep q hqe, hfree.1]

/-- `destroy_node` of the first node, after the head has been set to the next one. -/
theorem destroyNode_run {o : ListObject P A} {n : Node P T} {b : A}
    (ho : h.lists i = some o) (hp : h.cells p = some (b, some n))
    (hequal : tr.equal b o.allocator = true) :
    ∃ h₁, destroyNode tr i p h = some (.ok (), h₁) ∧ h₁.lists = h.lists ∧
      h₁.cells = Function.update h.cells p none ∧ h₁.allocations = h.allocations ∧
      h₁.accessible = h.accessible := by
  have ho' : ((h.setCell p (some (b, none))).record (.destroy p)).lists i = some o := ho
  refine ⟨_, (bind_run (destroy_run hp)).trans ((bind_run (object_run ho')).trans
    (deallocate_run (Function.update_self ..) hequal)), rfl, ?_, rfl, rfl⟩
  exact Function.update_idem ..

/-- The loop of `clear`. Only `size_` is wrong while it runs, so that the invariant is about the
heap with the right one. -/
theorem clearLoop_ends (ha : C.allocator i = some a) {s fuel : ℕ} (hfuel : l.length < fuel)
    (hlist : h.lists i = some ⟨first l, s, a⟩) (hl : C.chain i = l)
    (hR : Represents tr (h.setList i (some ⟨first l, l.length, a⟩)) C) :
    Ends (clearLoop tr i fuel) h fun r h' => r = .ok () ∧ h'.lists i = some ⟨none, s, a⟩ ∧
      Represents tr (h'.setList i (some ⟨none, 0, a⟩)) (C.setChain i []) := by
  induction l generalizing h C fuel with
  | nil =>
    obtain ⟨fuel, rfl⟩ := Nat.exists_eq_succ_of_ne_zero (Nat.ne_of_gt hfuel)
    refine Ends.step (object_run hlist) (.pure ⟨rfl, hlist, ?_⟩)
    rw [← hl, Chains.setChain_eq_self]
    exact hR
  | cons e l ih =>
    obtain ⟨fuel, rfl⟩ := Nat.exists_eq_succ_of_ne_zero (Nat.ne_zero_of_lt hfuel)
    have hcell : h.cells e.addr = some (e.allocator, some ⟨first l, e.value⟩) :=
      Linked.cell (l := []) (hl ▸ hR.linked i)
    have hnode : h.node? e.addr = some ⟨first l, e.value⟩ := by
      rw [NodeHeap.node?, hcell]
      rfl
    have hequal := hR.equal i a e ha (hl ▸ List.mem_cons_self)
    refine Ends.step (object_run hlist) (Ends.step (node_run hnode)
      (Ends.step (modifyObject_run hlist _) ?_))
    obtain ⟨h₁, hrun, hlists, hcells, hallocations, haccessible⟩ :=
      destroyNode_run (h := h.setList i (some ⟨first l, s, a⟩))
        (NodeHeap.setList_lists_self ..) hcell hequal
    refine Ends.step hrun ((ih (C := C.setChain i l) ha (Nat.lt_of_succ_lt_succ hfuel) ?_
      (Chains.setChain_self ..) ?_).mono fun r h' hP => ?_)
    · rw [hlists, NodeHeap.setList_lists_self]
    · refine hR.removeFirst ha hl ?_ hcells hallocations haccessible
      simp only [NodeHeap.setList, hlists, Function.update_idem]
    · obtain ⟨hr, hlist', hR'⟩ := hP
      exact ⟨hr, hlist', C.setChain_setChain i l [] ▸ hR'⟩

/-- **`clear` destroys and deallocates every node of the list.** -/
theorem clear_ends (hR : Represents tr h C) (ha : C.allocator i = some a) :
    Ends (clear tr i) h fun r h' => r = .ok () ∧ Represents tr h' (C.setChain i []) := by
  have hlist := hR.list ha
  have hself : h.setList i (some ⟨first (C.chain i), (C.chain i).length, a⟩) = h := by
    rw [NodeHeap.setList, ← hlist, Function.update_eq_self]
  refine Ends.step (object_run hlist) ((clearLoop_ends ha (Nat.lt_succ_self _) hlist rfl
    (hself.symm ▸ hR)).bind (fun _ h₁ hP => ?_) fun _ _ hP => by cases hP.1)
  obtain ⟨-, hlist₁, hR₁⟩ := hP
  exact .of_run (modifyObject_run hlist₁ _) ⟨rfl, hR₁⟩

/-! ## Element-wise copies and moves -/

/-- What becomes of an element when a new one is made from it, where a move leaves `left`. -/
def Transfer.leave (how : Transfer) (left : T → T) (e : Entry P A T) : Entry P A T :=
  match how with
  | .copy => e
  | .move => { e with value := left e.value }

omit [DecidableEq P] in
theorem Chains.setChain_comm (C : Chains P A T) (hij : i ≠ j) (l l' : List (Entry P A T)) :
    (C.setChain i l).setChain j l' = (C.setChain j l').setChain i l := by
  simp only [Chains.setChain, Function.update_comm hij]

/-- Only the element at the address itself is moved from. -/
theorem Represents.moveOut_eq (hR : Represents tr h C) (left : T → T) {l' : List (Entry P A T)}
    (hl : C.chain j = l ++ e :: l') :
    C.moveOut left e.addr = C.setChain j (l ++ Transfer.move.leave left e :: l') := by
  have hkeep : ∀ k : List (Entry P A T), (∀ f ∈ k, f.addr ≠ e.addr) →
      k.map (Entry.moveOut left e.addr) = k := by
    intro k hk
    refine (List.map_congr_left fun f hf => ?_).trans (List.map_id k)
    rw [Entry.moveOut, if_neg (hk f hf), id]
  have hchain : (fun k => (C.chain k).map (Entry.moveOut left e.addr)) =
      Function.update C.chain j (l ++ Transfer.move.leave left e :: l') := by
    funext k
    by_cases hkj : k = j
    · subst hkj
      have hnd := hR.nodup k
      rw [hl, addrs_append, List.nodup_append, addrs_cons, List.nodup_cons] at hnd
      obtain ⟨-, ⟨hl', -⟩, hdisjoint⟩ := hnd
      rw [Function.update_self, hl, List.map_append, List.map_cons]
      rw [hkeep l fun f hf hfe => hdisjoint _ (mem_addrs_of_mem hf) _ List.mem_cons_self hfe,
        hkeep l' fun f hf hfe => hl' (hfe ▸ mem_addrs_of_mem hf), Entry.moveOut, if_pos rfl]
      rfl
    · rw [Function.update_of_ne hkj]
      refine hkeep _ fun f hf hfe => hkj (hR.apart k j e.addr ?_ ?_)
      · exact hfe ▸ mem_addrs_of_mem hf
      · exact mem_addrs_of_mem (hl ▸ by simp)
  rw [Chains.moveOut, Chains.setChain, hchain]

theorem Represents.afterSource_eq (hR : Represents tr h C) (left : T → T) (how : Transfer)
    {l' : List (Entry P A T)} (hl : C.chain j = l ++ e :: l') :
    C.afterSource left (how.source e.addr) = C.setChain j (l ++ how.leave left e :: l') := by
  cases how with
  | copy =>
    change C = C.setChain j (l ++ e :: l')
    rw [← hl, Chains.setChain_eq_self]
  | move => exact hR.moveOut_eq left hl

/-- The state of the loop: the chain of `i` is `copies`, made from the first elements `front` of
the chain of `j`, and `rest` is still to come. -/
structure Transferred (tr : Traits A T) (h : NodeHeap P A T) (C : Chains P A T) (i j : ListId)
    (how : Transfer) (front rest copies : List (Entry P A T)) : Prop where
  split : C.chain j = front ++ rest
  values : copies.map Entry.value = front.map Entry.value
  represents : Represents tr h
    ((C.setChain j (front.map (how.leave tr.movedFrom) ++ rest)).setChain i copies)

/-- The first `k` elements of the chain of `j` have been copied or moved from, and the next one by a
constructor or an `allocate` that threw `x`. -/
def Chains.leaveUpTo (C : Chains P A T) (how : Transfer) (tr : Traits A T) (x : Failure)
    (j : ListId) (k : ℕ) : Chains P A T :=
  C.setChain j (((C.chain j).take k).map (how.leave tr.movedFrom) ++
    ((C.chain j).drop k).modifyHead (how.leave (tr.left x)))

omit [DecidableEq P] in
theorem Chains.leaveUpTo_eq {how : Transfer} {x : Failure} {front rest : List (Entry P A T)}
    (hj : C.chain j = front ++ e :: rest) : C.leaveUpTo how tr x j front.length =
      C.setChain j (front.map (how.leave tr.movedFrom) ++ how.leave (tr.left x) e :: rest) := by
  rw [Chains.leaveUpTo, hj, List.take_left, List.drop_left, List.modifyHead_cons]

omit [DecidableEq P] in
theorem Chains.leaveUpTo_copy (x : Failure) (k : ℕ) : C.leaveUpTo .copy tr x j k = C := by
  have hleave : ∀ l : List (Entry P A T), l.map (Transfer.copy.leave tr.movedFrom) = l :=
    List.map_id
  have hhead : ∀ l : List (Entry P A T), l.modifyHead (Transfer.copy.leave (tr.left x)) = l := by
    rintro (- | ⟨e, l⟩) <;> rfl
  rw [Chains.leaveUpTo, hleave, hhead, List.take_append_drop, Chains.setChain_eq_self]

omit [DecidableEq P] in
theorem Chains.leaveUpTo_chain_of_ne {how : Transfer} {x : Failure} (hij : i ≠ j) (k : ℕ) :
    (C.leaveUpTo how tr x j k).chain i = C.chain i :=
  C.setChain_of_ne hij _

section Append

variable {how : Transfer} {front rest copies : List (Entry P A T)}

/-- `create_node` of the next element. -/
theorem Transferred.createNode_ends (htr : tr.Lawful) (hij : i ≠ j) (ha : C.allocator i = some a)
    (hT : Transferred tr h C i j how front (e :: rest) copies) :
    Ends (createNode tr i none (how.source e.addr)) h fun r h' =>
      (∃ p, r = .ok p ∧ h.supplied = h'.supplied + 1 ∧ h.failure = h'.failure ∧ Orphan tr h'
          ((C.setChain j ((front ++ [e]).map (how.leave tr.movedFrom) ++ rest)).setChain i copies)
          p (a, some ⟨none, e.value⟩)) ∨
        r = .error h.failure ∧ h.supplied = 0 ∧
          Represents tr h' ((C.leaveUpTo how tr h.failure j front.length).setChain i copies) := by
  have hj : ((C.setChain j (front.map (how.leave tr.movedFrom) ++ e :: rest)).setChain i
      copies).chain j = front.map (how.leave tr.movedFrom) ++ e :: rest := by
    rw [Chains.setChain_of_ne _ hij.symm, Chains.setChain_self]
  have hmem : e ∈ ((C.setChain j (front.map (how.leave tr.movedFrom) ++ e :: rest)).setChain i
      copies).chain j := by simp [hj]
  have hreads : ((C.setChain j (front.map (how.leave tr.movedFrom) ++ e :: rest)).setChain i
      copies).Reads (how.source e.addr) e.value := by
    cases how <;> exact ⟨j, e, hmem, rfl, rfl⟩
  have hafter : ∀ left : T → T, ((C.setChain j (front.map (how.leave tr.movedFrom) ++
      e :: rest)).setChain i copies).afterSource left (how.source e.addr) =
        (C.setChain j (front.map (how.leave tr.movedFrom) ++ how.leave left e :: rest)).setChain i
          copies := by
    intro left
    rw [hT.represents.afterSource_eq left how hj, Chains.setChain_comm _ hij,
      Chains.setChain_setChain]
  refine (Lists.createNode_ends htr hT.represents ha hreads none).mono fun r h' hP => ?_
  rcases hP with ⟨p, hr, hsupplied, hfailure, hO⟩ | ⟨hr, hsupplied, hR⟩
  · rw [hafter] at hO
    refine .inl ⟨p, hr, hsupplied, hfailure, ?_⟩
    rwa [List.map_append, List.append_assoc]
  · rw [hafter] at hR
    refine .inr ⟨hr, hsupplied, ?_⟩
    rwa [Chains.leaveUpTo_eq hT.split]

/-- The loop of `copy_from` and `move_values_from`, by induction on the elements still to come. When
it throws it has transferred as many more as could be allocated and constructed. -/
theorem appendLoop_ends (htr : tr.Lawful) (hij : i ≠ j) (ha : C.allocator i = some a) {fuel : ℕ}
    (hfuel : rest.length < fuel) {tail : Tail P} (htail : tail.EndOf copies)
    (hT : Transferred tr h C i j how front rest copies) :
    Ends (appendLoop tr i how fuel tail (first rest)) h fun r h' => ∃ copies',
      (r = .ok () ∧ rest.length ≤ h.supplied ∧
          Transferred tr h' C i j how (front ++ rest) [] copies') ∨
        r = .error h.failure ∧ h.supplied < rest.length ∧ Represents tr h'
          ((C.leaveUpTo how tr h.failure j (front.length + h.supplied)).setChain i copies') := by
  induction rest generalizing h front copies fuel tail with
  | nil =>
    obtain ⟨fuel, rfl⟩ := Nat.exists_eq_succ_of_ne_zero (Nat.ne_zero_of_lt hfuel)
    exact .pure ⟨copies, .inl ⟨rfl, Nat.zero_le _, (List.append_nil front).symm ▸ hT⟩⟩
  | cons e rest ih =>
    obtain ⟨fuel, rfl⟩ := Nat.exists_eq_succ_of_ne_zero (Nat.ne_zero_of_lt hfuel)
    refine (hT.createNode_ends htr hij ha).bind (fun p h₁ hP => ?_) fun x h₁ hP => ?_
    · obtain ⟨q, hq, hsupplied, hfailure, hO⟩ | ⟨hx, -⟩ := hP
      swap
      · cases hx
      obtain rfl := Except.ok.inj hq
      obtain ⟨h₂, head, hrun, hlist, hR, hallocations, hconstructions⟩ :=
        assignTail_run hO (i := i) ha (htr.refl a) (by rwa [Chains.setChain_self])
      rw [Chains.setChain_self, Chains.setChain_setChain] at hR
      rw [Chains.setChain_self] at hlist
      have hj := hR.linked j
      rw [Chains.setChain_of_ne _ hij.symm, Chains.setChain_self, List.map_append,
        List.append_assoc] at hj
      have hcell : h₂.cells e.addr =
          some (e.allocator, some ⟨first rest, (how.leave tr.movedFrom e).value⟩) := by
        have hcell := Linked.cell hj
        cases how <;> exact hcell
      have hnode : (h₂.setList i (some ⟨head, copies.length + 1, a⟩)).node? e.addr =
          some ⟨first rest, (how.leave tr.movedFrom e).value⟩ := by
        rw [NodeHeap.node?, NodeHeap.setList_cells, hcell]
        rfl
      have hT₂ : Transferred tr (h₂.setList i (some ⟨head, copies.length + 1, a⟩)) C i j how
          (front ++ [e]) rest (copies ++ [⟨p, a, e.value⟩]) := by
        refine ⟨?_, ?_, hR⟩
        · rw [hT.split, List.append_assoc, List.singleton_append]
        · rw [List.map_append, List.map_append, hT.values]
          rfl
      have hsupplied₂ : (h₂.setList i (some ⟨head, copies.length + 1, a⟩)).supplied + 1 =
          h.supplied := by
        rw [hsupplied]
        exact congrArg (· + 1) (NodeHeap.supplied_congr hallocations hconstructions)
      have hfailure₂ : (h₂.setList i (some ⟨head, copies.length + 1, a⟩)).failure = h.failure := by
        rw [hfailure]
        exact NodeHeap.failure_congr hallocations hconstructions
      refine Ends.step hrun (Ends.step (modifyObject_run hlist _) (Ends.step (node_run hnode)
        ((ih (Nat.lt_of_succ_lt_succ hfuel) ?_ hT₂).mono fun r h' hP => ?_)))
      · simp [Tail.EndOf]
      · obtain ⟨copies', hr⟩ := hP
        refine ⟨copies', hr.imp ?_ ?_⟩
        · rintro ⟨hr, hle, hT'⟩
          rw [List.append_assoc, List.singleton_append] at hT'
          refine ⟨hr, ?_, hT'⟩
          rw [List.length_cons]
          omega
        · rintro ⟨hr, hlt, hR'⟩
          rw [hfailure₂] at hr hR'
          have hlength : (front ++ [e]).length +
              (h₂.setList i (some ⟨head, copies.length + 1, a⟩)).supplied =
                front.length + h.supplied := by
            rw [List.length_append, List.length_singleton]
            omega
          rw [hlength] at hR'
          refine ⟨hr, ?_, hR'⟩
          rw [List.length_cons]
          omega
    · obtain ⟨q, hq, -⟩ | ⟨hx, hsupplied, hR⟩ := hP
      · cases hq
      · refine ⟨copies, .inr ⟨congrArg _ (Except.error.inj hx), ?_, ?_⟩⟩
        · rw [hsupplied]
          exact Nat.succ_pos _
        · rwa [hsupplied, Nat.add_zero]

/-- **`copy_from` and `move_values_from` fill an empty list, or throw and leave it empty.** What has
been moved from by then stays so: the elements before the one that could not be transferred, and
that one as its constructor has left it. -/
theorem appendFrom_ends {b : A} (htr : tr.Lawful) (hR : Represents tr h C) (hij : i ≠ j)
    (ha : C.allocator i = some a) (hb : C.allocator j = some b) (hi : C.chain i = []) :
    Ends (appendFrom tr i j how) h fun r h' =>
      (r = .ok () ∧ (C.chain j).length ≤ h.supplied ∧ ∃ copies,
        copies.map Entry.value = (C.chain j).map Entry.value ∧ Represents tr h'
          ((C.setChain j ((C.chain j).map (how.leave tr.movedFrom))).setChain i copies)) ∨
      r = .error h.failure ∧ h.supplied < (C.chain j).length ∧
        Represents tr h' (C.leaveUpTo how tr h.failure j h.supplied) := by
  have hstart : Transferred tr h C i j how [] (C.chain j) [] := by
    refine ⟨rfl, rfl, ?_⟩
    rw [List.map_nil, List.nil_append, Chains.setChain_eq_self, ← hi, Chains.setChain_eq_self]
    exact hR
  have htail : (Tail.head : Tail P).EndOf ([] : List (Entry P A T)) := rfl
  refine Ends.step (object_run (hR.list hb)) (tryCatch_ends
    (appendLoop_ends htr hij ha (Nat.lt_succ_self _) htail hstart) (fun x h₁ hP => ?_)
    (fun _ h₁ hP => ?_) fun x h₁ hP => ?_)
  · obtain ⟨-, ⟨hx, -⟩ | ⟨hx, -⟩⟩ := hP
    · cases hx
    · rw [Except.error.inj hx]
      exact h.thrown_failure
  · obtain ⟨copies, ⟨-, hle, hT⟩ | ⟨hx, -⟩⟩ := hP
    · refine .inl ⟨rfl, hle, copies, hT.values, ?_⟩
      rw [← List.append_nil ((C.chain j).map _)]
      exact hT.represents
    · cases hx
  · obtain ⟨copies, ⟨hx, -⟩ | ⟨hx, hlt, hR₁⟩⟩ := hP
    · cases hx
    refine (clear_ends hR₁ (i := i) ha).mono fun r h' hP => ?_
    refine ⟨hP.1, .inr ⟨congrArg _ (Except.error.inj hx), hlt, ?_⟩⟩
    have hempty : (C.leaveUpTo how tr h.failure j h.supplied).chain i = [] := by
      rw [Chains.leaveUpTo_chain_of_ne hij, hi]
    have hR' := hP.2
    rwa [List.length_nil, Nat.zero_add, Chains.setChain_setChain, ← hempty,
      Chains.setChain_eq_self] at hR'

end Append

/-! ## Chains change hands -/

section Swap

variable {b : A}

omit [DecidableEq P] in
/-- Two lists exchange their chains and keep their allocators. -/
theorem Represents.swapChains (hR : Represents tr h C) (hij : i ≠ j) (ha : C.allocator i = some a)
    (hb : C.allocator j = some b) (hi : ∀ e ∈ C.chain i, tr.equal e.allocator b = true)
    (hj : ∀ e ∈ C.chain j, tr.equal e.allocator a = true) :
    Represents tr ((h.setList j (some ⟨first (C.chain i), (C.chain i).length, b⟩)).setList i
        (some ⟨first (C.chain j), (C.chain j).length, a⟩))
      ((C.setChain i (C.chain j)).setChain j (C.chain i)) := by
  have hself : ((C.setChain i (C.chain j)).setChain j (C.chain i)).chain i = C.chain j := by
    rw [Chains.setChain_of_ne _ hij, Chains.setChain_self]
  have hother : ∀ k, k ≠ i → k ≠ j →
      ((C.setChain i (C.chain j)).setChain j (C.chain i)).chain k = C.chain k := fun k hki hkj => by
    rw [Chains.setChain_of_ne _ hkj, Chains.setChain_of_ne _ hki]
  refine hR.permute (Equiv.swap i j) (fun k => ?_) rfl rfl (fun k => ?_) (fun k hk => ?_)
    (fun k c e hc he => ?_) ⟨hR.supplied.fresh, hR.supplied.distinct⟩
  · by_cases hki : k = i
    · rw [hki, Equiv.swap_apply_left, hself]
    · by_cases hkj : k = j
      · rw [hkj, Equiv.swap_apply_right, Chains.setChain_self]
      · rw [Equiv.swap_apply_of_ne_of_ne hki hkj, hother k hki hkj]
  · by_cases hki : k = i
    · rw [hki, NodeHeap.setList_lists_self, hself, Chains.setChain_allocator,
        Chains.setChain_allocator, ha, Option.map_some]
    · refine (Function.update_of_ne hki ..).trans ?_
      by_cases hkj : k = j
      · rw [hkj, NodeHeap.setList_lists_self, Chains.setChain_self, Chains.setChain_allocator,
          Chains.setChain_allocator, hb, Option.map_some]
      · refine (Function.update_of_ne hkj ..).trans ?_
        rw [hother k hki hkj]
        exact hR.lists k
  · have hki : k ≠ i := by
      rintro rfl
      cases ha.symm.trans hk
    have hkj : k ≠ j := by
      rintro rfl
      cases hb.symm.trans hk
    rw [hother k hki hkj]
    exact hR.absent k hk
  · change C.allocator k = some c at hc
    by_cases hki : k = i
    · subst hki
      obtain rfl := Option.some.inj (ha.symm.trans hc)
      exact hj e (hself ▸ he)
    · by_cases hkj : k = j
      · subst hkj
        obtain rfl := Option.some.inj (hb.symm.trans hc)
        rw [Chains.setChain_self] at he
        exact hi e he
      · rw [hother k hki hkj] at he
        exact hR.equal k c e hc he

omit [DecidableEq P] in
/-- **`swap_nodes` exchanges two chains**, if each list's allocator may free the other's nodes. -/
theorem swapNodes_ends (hR : Represents tr h C) (hij : i ≠ j) (ha : C.allocator i = some a)
    (hb : C.allocator j = some b) (hi : ∀ e ∈ C.chain i, tr.equal e.allocator b = true)
    (hj : ∀ e ∈ C.chain j, tr.equal e.allocator a = true) :
    Ends (swapNodes i j) h fun r h' => r = .ok () ∧
      Represents tr h' ((C.setChain i (C.chain j)).setChain j (C.chain i)) := by
  have hb' : (h.setList i (some ⟨first (C.chain j), (C.chain j).length, a⟩)).lists j =
      some ⟨first (C.chain j), (C.chain j).length, b⟩ :=
    (Function.update_of_ne hij.symm ..).trans (hR.list hb)
  refine Ends.step (object_run (hR.list ha)) (Ends.step (object_run (hR.list hb))
    (Ends.step (modifyObject_run (hR.list ha) _) (.of_run (modifyObject_run hb' _) ⟨rfl, ?_⟩)))
  refine (hR.swapChains hij ha hb hi hj).congr ?_ rfl rfl rfl
  exact Function.update_comm hij ..

omit [DecidableEq P] in
theorem stealNodesFrom_run {t o : ListObject P A} (hij : i ≠ j) (hi : h.lists i = some t)
    (hj : h.lists j = some o) : stealNodesFrom i j h =
      some (.ok (), (h.setList j (some { o with head := none, size := 0 })).setList i
        (some { t with head := o.head, size := o.size })) := by
  refine (bind_run (object_run hj)).trans ((bind_run (modifyObject_run hj _)).trans ?_)
  refine (bind_run (modifyObject_run (o := t) ?_ _)).trans
    ((bind_run (modifyObject_run (o := { o with head := none }) ?_ _)).trans
      ((modifyObject_run (o := { t with head := o.head }) ?_ _).trans ?_))
  · rw [NodeHeap.setList_lists_of_ne hij, hi]
  · rw [NodeHeap.setList_lists_of_ne hij.symm, NodeHeap.setList_lists_self]
  · rw [NodeHeap.setList_lists_of_ne hij, NodeHeap.setList_lists_self]
  · rw [NodeHeap.setList_comm hij, NodeHeap.setList_setList, NodeHeap.setList_setList]

omit [DecidableEq P] in
/-- **`steal_nodes_from` hands a chain to an empty list**, whose allocator may free its nodes. -/
theorem stealNodesFrom_ends (hR : Represents tr h C) (hij : i ≠ j) (ha : C.allocator i = some a)
    (hb : C.allocator j = some b) (hi : C.chain i = [])
    (hj : ∀ e ∈ C.chain j, tr.equal e.allocator a = true) :
    Ends (stealNodesFrom i j) h fun r h' => r = .ok () ∧
      Represents tr h' ((C.setChain i (C.chain j)).setChain j []) := by
  refine .of_run (stealNodesFrom_run hij (hR.list ha) (hR.list hb)) ⟨rfl, ?_⟩
  have hswap := hR.swapChains hij ha hb (by simp [hi]) hj
  rwa [hi] at hswap

end Swap

end Doost.Lists
