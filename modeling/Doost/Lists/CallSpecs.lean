import Doost.Lists.HelperSpecs
import Doost.Lists.Operations

/-!
# What the operations do to chains

One theorem for each operation of `List` over a heap of chains: it is defined, and its final heap
again holds chains, which the theorem names, whether it returns or throws. Most are sequences of
the theorems about the private helpers; `copyAssign_ends` and `moveElements_ends` follow the nodes
through a local list.
-/

namespace Doost.Lists

open Program

variable {P A T : Type} [DecidableEq P]

variable {tr : Traits A T} {h h' : NodeHeap P A T} {C : Chains P A T} {i j t : ListId} {p : P}
  {a b : A} {v : T} {e : Entry P A T} {l : List (Entry P A T)}

/-! ## Objects begin and end -/

omit [DecidableEq P] in
/-- An object without nodes begins, ends or gets another allocator. -/
theorem Represents.setAllocator (hR : Represents tr h C) (hi : C.chain i = []) (o : Option A) :
    Represents tr (h.setList i (o.map fun a => ⟨none, 0, a⟩)) (C.setAllocator i o) where
  lists k := by
    rw [Chains.setAllocator_chain]
    by_cases hki : k = i
    · rw [hki, NodeHeap.setList_lists_self, Chains.setAllocator_self, hi]
      rfl
    · rw [NodeHeap.setList_lists_of_ne hki, C.setAllocator_of_ne hki, hR.lists]
  absent k hk := by
    rw [Chains.setAllocator_chain]
    by_cases hki : k = i
    · rw [hki, hi]
    · exact hR.absent k (C.setAllocator_of_ne hki o ▸ hk)
  linked := hR.linked
  owned := hR.owned
  nodup := hR.nodup
  apart := hR.apart
  equal k c e hc he := by
    rw [Chains.setAllocator_chain] at he
    by_cases hki : k = i
    · rw [hki, hi] at he
      cases he
    · exact hR.equal k c e (C.setAllocator_of_ne hki o ▸ hc) he
  supplied := ⟨hR.supplied.fresh, hR.supplied.distinct⟩

omit [DecidableEq P] in
theorem Represents.newList (hR : Represents tr h C) (hi : C.allocator i = none) (a : A) :
    Represents tr (h.setList i (some ⟨none, 0, a⟩)) (C.setAllocator i (some a)) :=
  hR.setAllocator (hR.absent i hi) (some a)

omit [DecidableEq P] in
theorem Represents.forgetList (hR : Represents tr h C) (hi : C.chain i = []) :
    Represents tr (h.setList i none) (C.setAllocator i none) :=
  hR.setAllocator hi none

omit [DecidableEq P] in
/-- Nothing is left of a new object that has been given up. -/
theorem Chains.setAllocator_none (C : Chains P A T) (hi : C.allocator i = none) (o : Option A) :
    (C.setAllocator i o).setAllocator i none = C := by
  simp only [Chains.setAllocator, Function.update_idem, ← hi, Function.update_eq_self]

/-- **`~List()` leaves neither the object nor a node of it.** -/
theorem destroyList_ends (hR : Represents tr h C) (ha : C.allocator i = some a) :
    Ends (destroyList tr i) h fun r h' => r = .ok () ∧
      Represents tr h' ((C.setChain i []).setAllocator i none) := by
  refine (clear_ends hR ha).bind (fun _ h₁ hP => ?_) fun _ _ hP => by cases hP.1
  exact .of_run rfl ⟨rfl, hP.2.forgetList (Chains.setChain_self ..)⟩

/-! ## Copies -/

/-- **A copy constructor makes an object with copies of all elements, or nothing.** -/
theorem copyConstructWith_ends (htr : tr.Lawful) (hR : Represents tr h C)
    (hi : C.allocator i = none) (hb : C.allocator j = some b) (a : A) :
    Ends (copyConstructWith tr i j a) h fun r h' =>
      (r = .ok () ∧ (C.chain j).length ≤ h.supplied ∧ ∃ copies,
        copies.map Entry.value = (C.chain j).map Entry.value ∧
        Represents tr h' ((C.setAllocator i (some a)).setChain i copies)) ∨
      r = .error h.failure ∧ h.supplied < (C.chain j).length ∧ Represents tr h' C := by
  have hij : i ≠ j := by
    rintro rfl
    cases hi.symm.trans hb
  have hb' : (C.setAllocator i (some a)).allocator j = some b := by
    rw [C.setAllocator_of_ne hij.symm, hb]
  have hleave : ∀ l : List (Entry P A T), l.map (Transfer.copy.leave tr.movedFrom) = l :=
    List.map_id
  refine Ends.step rfl (tryCatch_ends (appendFrom_ends htr (hR.newList hi a) hij
    (Chains.setAllocator_self ..) hb' (hR.absent i hi)) (fun x h₁ hP => ?_) (fun _ h₁ hP => ?_)
    fun x h₁ hP => ?_)
  · obtain ⟨hx, -⟩ | ⟨hx, -⟩ := hP
    · cases hx
    · rw [Except.error.inj hx]
      exact NodeHeap.thrown_failure _
  · obtain ⟨-, hle, copies, hvalues, hR₁⟩ | ⟨hx, -⟩ := hP
    · rw [hleave, Chains.setChain_eq_self] at hR₁
      exact .inl ⟨rfl, hle, copies, hvalues, hR₁⟩
    · cases hx
  · obtain ⟨hx, -⟩ | ⟨hx, hlt, hR₁⟩ := hP
    · cases hx
    rw [Chains.leaveUpTo_copy] at hR₁
    have hR₂ := hR₁.forgetList (i := i) (hR.absent i hi)
    rw [Chains.setAllocator_none C hi] at hR₂
    exact .of_run rfl ⟨rfl, .inr ⟨congrArg _ (Except.error.inj hx), hlt, hR₂⟩⟩

omit [DecidableEq P] in
/-- A local list that is destroyed leaves the other lists as they are. -/
theorem Chains.forget_local (C : Chains P A T) (ht : C.allocator t = none) (ht' : C.chain t = [])
    (o : Option A) (l : List (Entry P A T)) :
    (((C.setAllocator t o).setChain t l).setChain t []).setAllocator t none = C := by
  have hchain : (C.setAllocator t o).setChain t [] = C.setAllocator t o := by
    rw [← ht']
    exact (C.setAllocator t o).setChain_eq_self t
  rw [Chains.setChain_setChain, hchain, C.setAllocator_none ht]

omit [DecidableEq P] in
/-- Also when it has exchanged its chain `l` with that of `i` before. -/
theorem Chains.exchange_local (C : Chains P A T) (hit : i ≠ t) (ht : C.allocator t = none)
    (ht' : C.chain t = []) (o : Option A) (l l' : List (Entry P A T)) :
    (((((C.setAllocator t o).setChain t l).setChain i l).setChain t l').setChain t []).setAllocator
      t none = C.setChain i l := by
  rw [Chains.setChain_comm _ hit.symm, Chains.setChain_setChain]
  exact (C.setChain i l).forget_local ht (by rw [C.setChain_of_ne hit.symm, ht']) o l

omit [DecidableEq P] in
/-- `swap_nodes` with a local list, which has the same allocator up to rebinding. -/
theorem swapLocal_ends (htr : tr.Lawful) (hR : Represents tr h C) (hit : i ≠ t)
    (ha : C.allocator i = some a) (ht : C.allocator t = some (tr.rebind a)) :
    Ends (swapNodes i t) h fun r h' => r = .ok () ∧
      Represents tr h' ((C.setChain i (C.chain t)).setChain t (C.chain i)) :=
  swapNodes_ends hR hit ha ht
    (fun e he => htr.trans _ _ _ (hR.equal i a e ha he) (htr.symm _ _ (htr.rebind a)))
    fun e he => htr.trans _ _ _ (hR.equal t _ e ht he) (htr.rebind a)

/-- **Copy assignment replaces the chain by copies, or changes nothing.** -/
theorem copyAssign_ends (htr : tr.Lawful) (hR : Represents tr h C) (ha : C.allocator i = some a)
    (hb : C.allocator j = some b) (ht : C.allocator t = none) :
    Ends (copyAssign tr i j t) h fun r h' =>
      (r = .ok () ∧ (i = j ∨ (C.chain j).length ≤ h.supplied) ∧ ∃ copies,
        copies.map Entry.value = (C.chain j).map Entry.value ∧
        Represents tr h' (C.setChain i copies)) ∨
      r = .error h.failure ∧ h.supplied < (C.chain j).length ∧ Represents tr h' C := by
  by_cases hij : i = j
  · subst hij
    rw [copyAssign, if_pos rfl]
    refine .pure (.inl ⟨rfl, .inl rfl, C.chain i, rfl, ?_⟩)
    rwa [Chains.setChain_eq_self]
  rw [copyAssign, if_neg hij]
  have hit : i ≠ t := by
    rintro rfl
    cases ha.symm.trans ht
  refine Ends.step (object_run (hR.list ha)) ((copyConstructWith_ends htr hR ht hb
    (tr.rebind a)).bind (fun _ h₁ hP => ?_) fun x h₁ hP => ?_)
  · obtain ⟨-, hle, copies, hvalues, hR₁⟩ | ⟨hx, -⟩ := hP
    swap
    · cases hx
    have ha₁ : (C.setAllocator t (some (tr.rebind a))).allocator i = some a := by
      rw [C.setAllocator_of_ne hit, ha]
    refine (swapLocal_ends htr hR₁ hit ha₁ (C.setAllocator_self t _)).bind (fun _ h₂ hP => ?_)
      fun _ _ hP => by cases hP.1
    refine (destroyList_ends hP.2 (C.setAllocator_self t _)).mono fun r h' hP => ?_
    refine .inl ⟨hP.1, .inr hle, copies, hvalues, ?_⟩
    have hR' := hP.2
    rwa [Chains.setChain_self, C.exchange_local hit ht (hR.absent t ht)] at hR'
  · obtain ⟨hx, -⟩ | ⟨hx, hlt, hR₁⟩ := hP
    · cases hx
    · exact .inr ⟨congrArg _ (Except.error.inj hx), hlt, hR₁⟩

/-! ## Moves -/

omit [DecidableEq P] in
/-- **A move constructor hands the chain to the new object.** -/
theorem moveConstruct_ends (hR : Represents tr h C) (hi : C.allocator i = none)
    (hb : C.allocator j = some b) :
    Ends (moveConstruct i j) h fun r h' => r = .ok () ∧
      Represents tr h' (((C.setAllocator i (some b)).setChain i (C.chain j)).setChain j []) := by
  have hij : i ≠ j := by
    rintro rfl
    cases hi.symm.trans hb
  have hb' : (C.setAllocator i (some b)).allocator j = some b := by
    rw [C.setAllocator_of_ne hij.symm, hb]
  refine Ends.step (object_run (hR.list hb)) (Ends.step (modifyObject_run (hR.list hb) _)
    (.of_run rfl ⟨rfl, ?_⟩))
  have hempty : (C.setAllocator i (some b)).chain i = [] := hR.absent i hi
  have hswap := (hR.newList hi b).swapChains hij (C.setAllocator_self i _) hb' (by simp [hempty])
    fun e he => hR.equal j b e hb he
  rw [NodeHeap.setList_comm hij, NodeHeap.setList_setList, hempty] at hswap
  exact hswap

/-- `move_values_from` into a local list, which is destroyed when it throws. -/
theorem moveToLocal_ends (htr : tr.Lawful) (hR : Represents tr h C) (htj : t ≠ j)
    (ht : C.allocator t = none) (hb : C.allocator j = some b) (c : A) :
    Ends (onException Failure.caught (moveValuesFrom tr t j) (destroyList tr t))
      (h.setList t (some ⟨none, 0, c⟩)) fun r h' =>
      (r = .ok () ∧ (C.chain j).length ≤ h.supplied ∧ ∃ copies,
        copies.map Entry.value = (C.chain j).map Entry.value ∧
        Represents tr h' (((C.setChain j ((C.chain j).map (Transfer.move.leave tr.movedFrom))
          ).setAllocator t (some c)).setChain t copies)) ∨
      r = .error h.failure ∧ h.supplied < (C.chain j).length ∧
        Represents tr h' (C.leaveUpTo .move tr h.failure j h.supplied) := by
  have hb' : (C.setAllocator t (some c)).allocator j = some b := by
    rw [C.setAllocator_of_ne htj.symm, hb]
  refine tryCatch_ends (appendFrom_ends htr (hR.newList ht c) htj (C.setAllocator_self t _) hb'
    (hR.absent t ht)) (fun x h₁ hP => ?_) (fun _ h₁ hP => ?_) fun x h₁ hP => ?_
  · obtain ⟨hx, -⟩ | ⟨hx, -⟩ := hP
    · cases hx
    · rw [Except.error.inj hx]
      exact NodeHeap.thrown_failure _
  · obtain ⟨-, hle, copies, hvalues, hR₁⟩ | ⟨hx, -⟩ := hP
    · exact .inl ⟨rfl, hle, copies, hvalues, hR₁⟩
    · cases hx
  · obtain ⟨hx, -⟩ | ⟨hx, hlt, hR₁⟩ := hP
    · cases hx
    refine (destroyList_ends hR₁ (i := t) (C.setAllocator_self t _)).mono fun r h' hP => ?_
    refine ⟨hP.1, .inr ⟨congrArg _ (Except.error.inj hx), hlt, ?_⟩⟩
    have hempty : (C.leaveUpTo .move tr h.failure j h.supplied).chain t = [] := by
      rw [Chains.leaveUpTo_chain_of_ne htj, hR.absent t ht]
    have hlocal := (C.leaveUpTo .move tr h.failure j h.supplied).forget_local ht hempty (some c) []
    rw [Chains.setChain_setChain] at hlocal
    exact (congrArg (Represents tr h') hlocal).mp hP.2

/-- **The element-wise branch of move assignment** replaces the chain by new nodes with the elements
of the other list and empties that one, or throws and has only moved from some elements. -/
theorem moveElements_ends (htr : tr.Lawful) (hR : Represents tr h C) (hij : i ≠ j)
    (ha : C.allocator i = some a) (hb : C.allocator j = some b) (ht : C.allocator t = none) :
    Ends (moveElements tr i j t) h fun r h' =>
      (r = .ok () ∧ (C.chain j).length ≤ h.supplied ∧ ∃ copies,
        copies.map Entry.value = (C.chain j).map Entry.value ∧
        Represents tr h' ((C.setChain i copies).setChain j [])) ∨
      r = .error h.failure ∧ h.supplied < (C.chain j).length ∧
        Represents tr h' (C.leaveUpTo .move tr h.failure j h.supplied) := by
  have hit : i ≠ t := by
    rintro rfl
    cases ha.symm.trans ht
  have hjt : j ≠ t := by
    rintro rfl
    cases hb.symm.trans ht
  refine Ends.step (object_run (hR.list ha)) (Ends.step rfl
    ((moveToLocal_ends htr hR hjt.symm ht hb (tr.rebind a)).bind (fun _ h₁ hP => ?_)
      fun x h₁ hP => ?_))
  · obtain ⟨-, hle, copies, hvalues, hR₁⟩ | ⟨hx, -⟩ := hP
    swap
    · cases hx
    generalize hD : C.setChain j ((C.chain j).map (Transfer.move.leave tr.movedFrom)) = D at hR₁
    have hallocator : D.allocator = C.allocator := by rw [← hD, Chains.setChain_allocator]
    have hDt : D.chain t = [] := by
      rw [← hD, C.setChain_of_ne hjt.symm, hR.absent t ht]
    have ha₁ : (D.setAllocator t (some (tr.rebind a))).allocator i = some a := by
      rw [D.setAllocator_of_ne hit, hallocator, ha]
    have hb₁ : (D.setAllocator t (some (tr.rebind a))).allocator j = some b := by
      rw [D.setAllocator_of_ne hjt, hallocator, hb]
    have ht₁ := D.setAllocator_self t (some (tr.rebind a))
    refine (clear_ends hR₁ (i := i) ha₁).bind (fun _ h₂ hP => ?_) fun _ _ hP => by cases hP.1
    refine (swapLocal_ends htr hP.2 hit ha₁ ht₁).bind (fun _ h₃ hP => ?_)
      fun _ _ hP => by cases hP.1
    refine (clear_ends hP.2 (i := j) hb₁).bind (fun _ h₄ hP => ?_) fun _ _ hP => by cases hP.1
    refine (destroyList_ends hP.2 ht₁).mono fun r h' hP => ?_
    refine .inl ⟨hP.1, hle, copies, hvalues, ?_⟩
    have hR' := hP.2
    rw [Chains.setChain_self, Chains.setChain_of_ne _ hit.symm, Chains.setChain_self,
      Chains.setChain_setChain, Chains.setChain_comm _ hjt] at hR'
    have hlocal := D.exchange_local hit (hallocator ▸ ht) hDt (some (tr.rebind a)) copies []
    have hfinal : (D.setChain i copies).setChain j [] = (C.setChain i copies).setChain j [] := by
      rw [← hD, Chains.setChain_comm _ hij.symm, Chains.setChain_setChain]
    rw [← hfinal]
    exact (congrArg (fun D => Represents tr h' (D.setChain j [])) hlocal).mp hR'
  · obtain ⟨hx, -⟩ | ⟨hx, hlt, hR₁⟩ := hP
    · cases hx
    · exact .inr ⟨congrArg _ (Except.error.inj hx), hlt, hR₁⟩

/-- **Move assignment hands the elements over and empties the other list**, or throws and has only
moved from some of them. -/
theorem moveAssign_ends (htr : tr.Lawful) (hR : Represents tr h C) (ha : C.allocator i = some a)
    (hb : C.allocator j = some b) (ht : C.allocator t = none) :
    Ends (moveAssign tr i j t) h fun r h' =>
      (i = j ∧ r = .ok () ∧ Represents tr h' C) ∨
      (i ≠ j ∧ r = .ok () ∧ (tr.propagateOnMoveAssignment = true ∨ tr.equal a b = true ∨
          (C.chain j).length ≤ h.supplied) ∧
        ∃ c copies, copies.map Entry.value = (C.chain j).map Entry.value ∧
          Represents tr h' (((C.setAllocator i (some c)).setChain i copies).setChain j [])) ∨
      i ≠ j ∧ r = .error h.failure ∧ h.supplied < (C.chain j).length ∧
        Represents tr h' (C.leaveUpTo .move tr h.failure j h.supplied) := by
  by_cases hij : i = j
  · rw [moveAssign, if_pos hij]
    exact .pure (.inl ⟨hij, rfl, hR⟩)
  rw [moveAssign, if_neg hij]
  have hchain : (C.setChain i []).chain j = C.chain j := C.setChain_of_ne (Ne.symm hij) _
  have hsame : C.setAllocator i (some a) = C := by
    rw [Chains.setAllocator, ← ha, Function.update_eq_self]
  cases hp : tr.propagateOnMoveAssignment with
  | true =>
    rw [if_pos rfl]
    refine (clear_ends hR ha).bind (fun _ h₁ hP => ?_) fun _ _ hP => by cases hP.1
    have hR₁ := hP.2
    refine Ends.step (object_run (hR₁.list hb)) (Ends.step (modifyObject_run (hR₁.list ha) _) ?_)
    have hR₂ := hR₁.setAllocator (C.setChain_self i []) (some b)
    rw [Chains.setChain_self]
    have hb₂ : ((C.setChain i []).setAllocator i (some b)).allocator j = some b := by
      rw [Chains.setAllocator_of_ne _ (Ne.symm hij), C.setChain_allocator, hb]
    refine (stealNodesFrom_ends hR₂ hij (Chains.setAllocator_self ..) hb₂ (C.setChain_self i [])
      fun e he => ?_).mono fun r h' hP =>
        .inr (.inl ⟨hij, hP.1, .inl rfl, b, C.chain j, rfl, ?_⟩)
    · exact hR.equal j b e hb (hchain ▸ he)
    · have hR' := hP.2
      have hswap : (C.setChain i []).setAllocator i (some b) =
          (C.setAllocator i (some b)).setChain i [] := rfl
      rwa [Chains.setAllocator_chain, hchain, hswap, Chains.setChain_setChain] at hR'
  | false =>
    rw [if_neg Bool.false_ne_true]
    refine Ends.step (object_run (hR.list ha)) (Ends.step (object_run (hR.list hb)) ?_)
    cases hequal : tr.equal a b with
    | true =>
      rw [if_pos rfl]
      refine (clear_ends hR ha).bind (fun _ h₁ hP => ?_) fun _ _ hP => by cases hP.1
      refine (stealNodesFrom_ends hP.2 hij ha hb (C.setChain_self i []) fun e he => ?_).mono
        fun r h' hP => .inr (.inl ⟨hij, hP.1, .inr (.inl rfl), a, C.chain j, rfl, ?_⟩)
      · exact htr.trans _ _ _ (hR.equal j b e hb (hchain ▸ he)) (htr.symm _ _ hequal)
      · have hR' := hP.2
        rwa [hchain, Chains.setChain_setChain, ← hsame] at hR'
    | false =>
      rw [if_neg Bool.false_ne_true]
      refine (moveElements_ends htr hR hij ha hb ht).mono fun r h' hP => ?_
      refine .inr (hP.imp ?_ ?_)
      · rintro ⟨hr, hle, copies, hvalues, hR'⟩
        exact ⟨hij, hr, .inr (.inr hle), a, copies, hvalues, hsame.symm ▸ hR'⟩
      · exact fun hR' => ⟨hij, hR'⟩

/-! ## Modifiers -/

/-- **`emplace_front` puts one node before the others**, or changes nothing but an element that its
argument has been half moved from. -/
theorem emplaceFront_ends {source : Source P T} (htr : tr.Lawful) (hR : Represents tr h C)
    (ha : C.allocator i = some a) (hv : C.Reads source v) :
    Ends (emplaceFront tr i source) h fun r h' =>
      (∃ p, r = .ok p ∧ 0 < h.supplied ∧
        Represents tr h' ((C.afterSource tr.movedFrom source).setChain i
          (⟨p, a, v⟩ :: (C.afterSource tr.movedFrom source).chain i))) ∨
      r = .error h.failure ∧ h.supplied = 0 ∧
        Represents tr h' (C.afterSource (tr.left h.failure) source) := by
  have hfirst : first ((C.afterSource tr.movedFrom source).chain i) = first (C.chain i) := by
    cases source with
    | value w | copyOf q => rfl
    | moveFrom q => exact first_map_moveOut _
  refine Ends.step (object_run (hR.list ha)) ((createNode_ends htr hR ha hv _).bind
    (fun p h₁ hP => ?_) fun x h₁ hP => ?_)
  · obtain ⟨q, hq, hsupplied, -, hO⟩ | ⟨hx, -⟩ := hP
    swap
    · cases hx
    obtain rfl := Except.ok.inj hq
    have ha₁ : (C.afterSource tr.movedFrom source).allocator i = some a := by
      rw [Chains.afterSource_allocator, ha]
    rw [← hfirst] at hO
    have hpush := hO.push ha₁ (htr.refl a)
    have hlist : h₁.lists i = some ⟨first ((C.afterSource tr.movedFrom source).chain i),
      ((C.afterSource tr.movedFrom source).chain i).length, a⟩ := hO.rest.list ha₁
    refine Ends.step (modifyObject_run hlist _) (Ends.step
      (modifyObject_run (NodeHeap.setList_lists_self ..) _) ?_)
    rw [NodeHeap.setList_setList]
    refine Ends.step (object_run (NodeHeap.setList_lists_self ..)) (.pure ?_)
    exact .inl ⟨p, rfl, by omega, hpush⟩
  · obtain ⟨q, hq, -⟩ | ⟨hx, hsupplied, hR₁⟩ := hP
    · cases hq
    · exact .inr ⟨congrArg _ (Except.error.inj hx), hsupplied, hR₁⟩

/-- `head_` when there are no nodes. -/
theorem popFront_ends_nil (hR : Represents tr h C) (ha : C.allocator i = some a)
    (hi : C.chain i = []) : popFront tr i h = some (.error .outOfRange, h) := by
  refine (bind_run (object_run (hR.list ha))).trans ?_
  rw [hi]
  rfl

/-- **`pop_front` takes the first node away.** -/
theorem popFront_ends (hR : Represents tr h C) (ha : C.allocator i = some a)
    (hi : C.chain i = e :: l) :
    Ends (popFront tr i) h fun r h' => r = .ok () ∧ Represents tr h' (C.setChain i l) := by
  have hlist := hR.list ha
  have hcell := Linked.cell (l := []) (hi ▸ hR.linked i)
  rw [hi] at hlist
  have hnode : h.node? e.addr = some ⟨first l, e.value⟩ := by
    rw [NodeHeap.node?, hcell]
    rfl
  have hequal := hR.equal i a e ha (hi ▸ List.mem_cons_self)
  obtain ⟨h₁, hrun, hlists, hcells, hallocations, haccessible⟩ :=
    destroyNode_run (h := h.setList i (some ⟨first l, l.length, a⟩))
      (NodeHeap.setList_lists_self ..) hcell hequal
  refine Ends.step (object_run hlist) (Ends.step (node_run hnode) (Ends.step
    (modifyObject_run hlist _) (Ends.step (modifyObject_run (NodeHeap.setList_lists_self ..) _)
      (.of_run ?_ ⟨rfl, hR.removeFirst ha hi hlists hcells hallocations haccessible⟩))))
  rw [NodeHeap.setList_setList]
  exact hrun

/-- The list at `i` gives up its nodes. -/
def Chains.release (C : Chains P A T) (i : ListId) : Chains P A T :=
  { C.setChain i [] with released := fun p => C.released p ∨ p ∈ addrs (C.chain i) }

omit [DecidableEq P] in
/-- **`release_nodes` leaves the nodes behind.** -/
theorem releaseNodes_ends (hR : Represents tr h C) (ha : C.allocator i = some a) :
    Ends (releaseNodes i) h fun r h' => r = .ok () ∧ Represents tr h' (C.release i) := by
  have hother : ∀ k, k ≠ i → (C.release i).chain k = C.chain k := fun k hk => C.setChain_of_ne hk _
  have hself : (C.release i).chain i = [] := C.setChain_self i []
  refine .of_run (modifyObject_run (hR.list ha) _) ⟨rfl, fun k => ?_, fun k hk => ?_, fun k => ?_,
    fun p x hx => ?_, fun k => ?_, fun k m p hk hm => ?_, fun k c e hc he => ?_,
    hR.supplied.fresh, hR.supplied.distinct⟩
  · by_cases hki : k = i
    · rw [hki, NodeHeap.setList_lists_self, hself]
      exact congrArg (Option.map _) ha.symm
    · rw [NodeHeap.setList_lists_of_ne hki, hother k hki]
      exact hR.lists k
  · by_cases hki : k = i
    · rw [hki, hself]
    · rw [hother k hki, hR.absent k hk]
  · by_cases hki : k = i
    · rw [hki, hself]
      trivial
    · rw [hother k hki]
      exact hR.linked k
  · rcases hR.owned p x hx with hp | ⟨k, hk⟩
    · exact .inl (.inl hp)
    · by_cases hki : k = i
      · exact .inl (.inr (hki ▸ hk))
      · exact .inr ⟨k, hother k hki ▸ hk⟩
  · by_cases hki : k = i
    · rw [hki, hself]
      exact List.nodup_nil
    · rw [hother k hki]
      exact hR.nodup k
  · by_cases hki : k = i
    · rw [hki, hself] at hk
      cases hk
    · by_cases hmi : m = i
      · rw [hmi, hself] at hm
        cases hm
      · exact hR.apart k m p (hother k hki ▸ hk) (hother m hmi ▸ hm)
  · by_cases hki : k = i
    · rw [hki, hself] at he
      cases he
    · exact hR.equal k c e hc (hother k hki ▸ he)

end Doost.Lists
