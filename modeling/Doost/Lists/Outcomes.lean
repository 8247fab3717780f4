import Doost.Foundations.Sequences
import Doost.Lists.CallSpecs

/-!
# What a legal call does

`NodeHeap.meaning` is what a call means for the sequences of elements that a program sees.
`Represents.perform` joins the theorems about the operations: every legal call is defined on a heap
of chains and leaves one, and unless `allocate` or a constructor throws, the sequences are what
the call means.
-/

namespace Doost.Lists

open Program

variable {P A T : Type} [DecidableEq P]

/-! ## The sequences of a heap -/

/-- The elements of the lists. -/
def Chains.contents (C : Chains P A T) : Sequences ListId T := fun i =>
  (C.allocator i).map fun _ => (C.chain i).map Entry.value

namespace NodeHeap

/-- The elements of the lists, as the iterators visit them. -/
def sequences (h : NodeHeap P A T) : Sequences ListId T := fun i =>
  (h.elements i).map fun l => l.map Prod.snd

/-- How many nodes of the list at `owner` come before the node at `q`. -/
def position (h : NodeHeap P A T) (owner : ListId) (q : P) : ℕ :=
  (((h.elements owner).getD []).map Prod.fst).idxOf q

def argument (h : NodeHeap P A T) (owner : ListId) : Source P T → Sequences.Argument ListId T
  | .value v => .value v
  | .copyOf q => .element owner (h.position owner q)
  | .moveFrom q => .moved owner (h.position owner q)

/-- What a call means for the sequences. -/
def meaning (h : NodeHeap P A T) : ListOp P A T → Sequences.Op ListId T
  | .construct this _ => .new this
  | .copyConstruct this other => .copy this other
  | .copyConstructWith this other _ => .copy this other
  | .moveConstruct this other => .move this other
  | .copyAssign this other _ => .copy this other
  | .moveAssign this other _ => .move this other
  | .emplaceFront this source owner => .push this (h.argument owner source)
  | .pushFront this source owner => .push this (h.argument owner source)
  | .popFront this => .pop this
  | .clear this => .clear this
  | .releaseNodes this => .clear this
  | .destroy this => .remove this

/-- How many nodes a call may have to create. -/
def needs (h : NodeHeap P A T) : ListOp P A T → ℕ
  | .copyConstruct _ other => (h.size other).getD 0
  | .copyConstructWith _ other _ => (h.size other).getD 0
  | .copyAssign _ other _ => (h.size other).getD 0
  | .moveAssign _ other _ => (h.size other).getD 0
  | .emplaceFront _ _ _ => 1
  | .pushFront _ _ _ => 1
  | _ => 0

end NodeHeap

section Contents

variable {tr : Traits A T} {h h' : NodeHeap P A T} {C : Chains P A T} {i j owner : ListId}
  {a : A} {v : T} {l : List (Entry P A T)} {source : Source P T} {q : P}

omit [DecidableEq P] in
theorem Chains.contents_eq (ha : C.allocator i = some a) :
    C.contents i = some ((C.chain i).map Entry.value) := by
  rw [Chains.contents, ha, Option.map_some]

omit [DecidableEq P] in
theorem Chains.contents_setChain (ha : C.allocator i = some a) :
    (C.setChain i l).contents = Function.update C.contents i (some (l.map Entry.value)) := by
  funext k
  by_cases hki : k = i
  · rw [hki, Function.update_self, Chains.contents_eq (C := C.setChain i l) ha,
      Chains.setChain_self]
  · rw [Function.update_of_ne hki, Chains.contents, Chains.contents, C.setChain_of_ne hki,
      C.setChain_allocator]

omit [DecidableEq P] in
theorem Chains.contents_setAllocator (o : Option A) : (C.setAllocator i o).contents =
    Function.update C.contents i (o.map fun _ => (C.chain i).map Entry.value) := by
  funext k
  by_cases hki : k = i
  · rw [hki, Function.update_self, Chains.contents, C.setAllocator_self, C.setAllocator_chain]
  · rw [Function.update_of_ne hki, Chains.contents, Chains.contents, C.setAllocator_of_ne hki,
      C.setAllocator_chain]

omit [DecidableEq P] in
theorem Chains.contents_new (a : A) : ((C.setAllocator i (some a)).setChain i l).contents =
    Function.update C.contents i (some (l.map Entry.value)) := by
  rw [Chains.contents_setChain (C.setAllocator_self i _), Chains.contents_setAllocator,
    Function.update_idem]

omit [DecidableEq P] in
theorem Linked.iterate (hl : Linked h.cells l) :
    h.iterate l.length (first l) = some (l.map fun e => (e.addr, e.value)) := by
  induction l with
  | nil => rfl
  | cons e l ih =>
    have hnode : h.node? e.addr = some ⟨first l, e.value⟩ := by
      rw [NodeHeap.node?, hl.1]
      rfl
    rw [first_cons, List.length_cons, NodeHeap.iterate, hnode]
    simp only [Option.bind_eq_bind, Option.bind_some, ih hl.2]
    rfl

omit [DecidableEq P] in
/-- **The iterators visit the chain.** -/
theorem Represents.elements (hR : Represents tr h C) (i : ListId) : h.elements i =
    (C.allocator i).map fun _ => (C.chain i).map fun e => (e.addr, e.value) := by
  rw [NodeHeap.elements, hR.lists]
  cases C.allocator i with
  | none => rfl
  | some a => exact (hR.linked i).iterate

omit [DecidableEq P] in
theorem Represents.sequences (hR : Represents tr h C) : h.sequences = C.contents := by
  funext i
  rw [NodeHeap.sequences, hR.elements, Option.map_map, Chains.contents]
  congr 1
  funext a
  simp [Function.comp_def]

omit [DecidableEq P] in
/-- A list is there if it has a sequence. -/
theorem Represents.lists_isSome (hR : Represents tr h C) (i : ListId) :
    (h.lists i).isSome = (h.sequences i).isSome := by
  rw [hR.sequences, hR.lists, Chains.contents, Option.isSome_map, Option.isSome_map]

omit [DecidableEq P] in
theorem Represents.size (hR : Represents tr h C) (ha : C.allocator i = some a) :
    h.size i = some (C.chain i).length := by
  rw [NodeHeap.size, hR.list ha, Option.map_some]

omit [DecidableEq P] in
theorem Represents.size_getD (hR : Represents tr h C) (ha : C.allocator i = some a) :
    (h.size i).getD 0 = (C.chain i).length := by
  rw [hR.size ha, Option.getD_some]

omit [DecidableEq P] in
theorem Represents.allocator_of_isSome (hR : Represents tr h C) (hi : (h.lists i).isSome) :
    ∃ a, C.allocator i = some a := by
  rw [hR.lists, Option.isSome_map] at hi
  exact Option.isSome_iff_exists.mp hi

omit [DecidableEq P] in
theorem Represents.allocator_of_isNone (hR : Represents tr h C) (hi : (h.lists i).isNone) :
    C.allocator i = none := by
  rwa [hR.lists, Option.isNone_map, Option.isNone_iff_eq_none] at hi

/-- An element that the iterators visit, and what is before and behind it. -/
theorem Represents.exists_of_any (hR : Represents tr h C)
    (hq : (h.elements owner).any fun l => q ∈ l.map Prod.fst) :
    ∃ a l e l', C.allocator owner = some a ∧ C.chain owner = l ++ e :: l' ∧ e.addr = q ∧
      h.position owner q = l.length := by
  rw [hR.elements] at hq
  cases ha : C.allocator owner with
  | none => simp [ha] at hq
  | some a =>
    have hmem : q ∈ addrs (C.chain owner) := by
      simpa [ha, addrs, Function.comp_def] using hq
    obtain ⟨e, he, rfl⟩ := List.mem_map.mp hmem
    obtain ⟨l, l', hl⟩ := List.append_of_mem he
    refine ⟨a, l, e, l', rfl, hl, rfl, ?_⟩
    have hnd := hR.nodup owner
    rw [hl, addrs_append, List.nodup_append] at hnd
    have hnotMem : e.addr ∉ addrs l := fun hm => hnd.2.2 _ hm _ List.mem_cons_self rfl
    have haddrs : ((h.elements owner).getD []).map Prod.fst = addrs l ++ e.addr :: addrs l' := by
      rw [hR.elements, ha, hl]
      simp [addrs, Function.comp_def]
    rw [NodeHeap.position, haddrs, List.idxOf_append, if_neg hnotMem, List.idxOf_cons_self]
    simp [addrs]

/-- **A legal source is an argument of the sequences**: it has the value that is read there, and
leaves what it leaves there. -/
theorem Represents.reads (hR : Represents tr h C) (hs : h.acceptsSource owner source) :
    ∃ v, C.Reads source v ∧ (h.argument owner source).read C.contents = some v ∧
      (C.afterSource tr.movedFrom source).contents =
        (h.argument owner source).leave tr.movedFrom C.contents := by
  cases source with
  | value v => exact ⟨v, rfl, rfl, rfl⟩
  | copyOf q =>
    obtain ⟨a, l, e, l', ha, hl, rfl, hpos⟩ := hR.exists_of_any hs
    refine ⟨e.value, ⟨owner, e, hl ▸ by simp, rfl, rfl⟩, ?_, rfl⟩
    rw [NodeHeap.argument, hpos, Sequences.Argument.read, Chains.contents_eq ha, hl]
    simp
  | moveFrom q =>
    obtain ⟨a, l, e, l', ha, hl, rfl, hpos⟩ := hR.exists_of_any hs
    refine ⟨e.value, ⟨owner, e, hl ▸ by simp, rfl, rfl⟩, ?_, ?_⟩
    · rw [NodeHeap.argument, hpos, Sequences.Argument.read, Chains.contents_eq ha, hl]
      simp
    · rw [NodeHeap.argument, hpos, Sequences.Argument.leave, Chains.contents_eq ha]
      change (C.moveOut tr.movedFrom e.addr).contents = _
      rw [hR.moveOut_eq _ hl, Chains.contents_setChain ha, hl, Option.map_some]
      simp only [List.map_append, List.map_cons]
      rw [← List.length_map Entry.value, Sequences.modify_middle]
      rfl

end Contents

/-! ## Legal calls -/

/-- How the call `op` ends on the chains `C` of `h`: as it means, with an exception of its own, or
with one of `allocate` or a constructor. -/
inductive Outcome (tr : Traits A T) (h : NodeHeap P A T) (C : Chains P A T) (op : ListOp P A T) :
    Except Failure Unit → Chains P A T → Prop where
  | returns {C' : Chains P A T}
      (contents : C'.contents = C.contents.apply tr.movedFrom (h.meaning op))
      (popped : ∀ i, op = .popFront i → C.contents i ≠ some []) : Outcome tr h C op (.ok ()) C'
  | outOfRange (i : ListId) (popped : op = .popFront i) (empty : C.contents i = some []) :
      Outcome tr h C op (.error .outOfRange) C
  | throws {C' : Chains P A T} (x : Failure) (thrown : x.thrown = true) :
      Outcome tr h C op (.error x) C'

/-- A call on the chains `C` of `h` has ended with `r`, in the heap `h'` with the chains `C'`. -/
structure Performed (tr : Traits A T) (h : NodeHeap P A T) (C : Chains P A T) (c : Call P A T)
    (r : Except Failure Unit) (h' : NodeHeap P A T) (C' : Chains P A T) : Prop where
  represents : Represents tr h' C'
  outcome : Outcome tr h C c.op r C'
  released : (∀ i, c.op ≠ .releaseNodes i) → C'.released = C.released
  supplied : (h.answering c).supplies (h.needs c.op) → ∀ x, r = .error x → x.thrown = false
  unchanged : r = .error .outOfRange → h' = h.answering c

section Perform

variable {tr : Traits A T} {h h' : NodeHeap P A T} {C C' : Chains P A T} {c : Call P A T}
  {i j t : ListId} {a b : A} {x : Failure} {r : Except Failure Unit}

/-- A call has returned. -/
theorem Performed.of_ok (hR : Represents tr h' C')
    (hcontents : C'.contents = C.contents.apply tr.movedFrom (h.meaning c.op))
    (hpop : ∀ i, c.op ≠ .popFront i) (hreleased : (∀ i, c.op ≠ .releaseNodes i) →
      C'.released = C.released) : Performed tr h C c (.ok ()) h' C' :=
  ⟨hR, .returns hcontents fun i hi => absurd hi (hpop i), hreleased,
    fun _ _ hx => (by cases hx), fun hr => by cases hr⟩

/-- A call that was not supplied has thrown. -/
theorem Performed.of_thrown (hR : Represents tr h' C') (hx : x.thrown = true)
    (hreleased : C'.released = C.released)
    (hlt : (h.answering c).supplied < h.needs c.op) :
    Performed tr h C c (.error x) h' C' := by
  refine ⟨hR, .throws x hx, fun _ => hreleased, fun hn => ?_, fun hr => ?_⟩
  · exact absurd (NodeHeap.supplies_iff.mp hn) (Nat.not_le_of_lt hlt)
  · rw [Except.error.inj hr] at hx
    cases hx

/-- The sequences after a call that has not thrown. To pop from an empty list changes none. -/
theorem Performed.contents (hP : Performed tr h C c r h' C')
    (hr : ∀ x, r = .error x → x.thrown = false) :
    C'.contents = C.contents.apply tr.movedFrom (h.meaning c.op) := by
  cases hP.outcome with
  | returns contents popped => exact contents
  | outOfRange i popped empty =>
    rw [popped]
    simp only [NodeHeap.meaning, Sequences.apply, empty]
    exact (Function.update_eq_self_iff.mpr empty.symm).symm
  | throws x thrown => cases thrown.symm.trans (hr x rfl)

/-- A call that has not thrown has returned, if it is no `pop_front`. -/
theorem Performed.returns (hP : Performed tr h C c r h' C')
    (hr : ∀ x, r = .error x → x.thrown = false) (hpop : ∀ i, c.op ≠ .popFront i) :
    r = .ok () := by
  cases hP.outcome with
  | returns contents popped => rfl
  | outOfRange i popped empty => exact absurd popped (hpop i)
  | throws x thrown => cases thrown.symm.trans (hr x rfl)

/-- The heap with the answers of a legal call. -/
theorem Represents.answering (hR : Represents tr h C) (hc : h.mayReturn c.allocations) :
    Represents tr (h.answering c) C := by
  simp only [NodeHeap.mayReturn, Bool.and_eq_true, List.all_eq_true, Option.isNone_iff_eq_none,
    decide_eq_true_eq] at hc
  refine { hR with supplied := ⟨fun p hp => hc.1 p ?_, hc.2⟩ }
  exact List.mem_filterMap.mpr ⟨some p, hp, rfl⟩

omit [DecidableEq P] in
/-- There is nothing at the start. -/
theorem represents_start (tr : Traits A T) (accessible : P → Bool) :
    Represents tr (NodeHeap.start accessible)
      ⟨fun _ => none, fun _ => [], fun _ => False⟩ where
  lists _ := rfl
  absent _ _ := rfl
  linked _ := trivial
  owned _ _ hx := by cases hx
  nodup _ := List.nodup_nil
  apart _ _ _ hp := by cases hp
  equal _ _ _ ha := by cases ha
  supplied := ⟨fun _ hp => (by cases hp), List.nodup_nil⟩

/-- Copy construction, whichever the allocator. -/
theorem copyConstruct_performed (htr : tr.Lawful) (hR : Represents tr (h.answering c) C)
    (hi : C.allocator i = none) (hb : C.allocator j = some b) (a : A)
    (hmeaning : h.meaning c.op = .copy i j) (hneeds : h.needs c.op = (C.chain j).length)
    (hop : ∀ k, c.op ≠ .popFront k) :
    Ends (copyConstructWith tr i j a) (h.answering c) fun r h' =>
      ∃ C', Performed tr h C c r h' C' := by
  refine (copyConstructWith_ends htr hR hi hb a).mono fun r h' hP => ?_
  obtain ⟨rfl, -, copies, hvalues, hR'⟩ | ⟨rfl, hlt, hR'⟩ := hP
  · refine ⟨_, .of_ok hR' ?_ hop fun _ => rfl⟩
    rw [hmeaning, Chains.contents_new, hvalues, ← Chains.contents_eq hb]
    rfl
  · exact ⟨C, .of_thrown hR' (NodeHeap.thrown_failure _) rfl (hneeds ▸ hlt)⟩

theorem copyAssign_performed (htr : tr.Lawful) (hR : Represents tr (h.answering c) C)
    (ha : C.allocator i = some a) (hb : C.allocator j = some b) (ht : C.allocator t = none)
    (hop : c.op = .copyAssign i j t) (hneeds : h.needs c.op = (C.chain j).length) :
    Ends (copyAssign tr i j t) (h.answering c) fun r h' => ∃ C', Performed tr h C c r h' C' := by
  refine (copyAssign_ends htr hR ha hb ht).mono fun r h' hP => ?_
  obtain ⟨rfl, -, copies, hvalues, hR'⟩ | ⟨rfl, hlt, hR'⟩ := hP
  · refine ⟨_, .of_ok hR' ?_ (by simp [hop]) fun _ => rfl⟩
    rw [hop, Chains.contents_setChain ha, hvalues, ← Chains.contents_eq hb]
    rfl
  · exact ⟨C, .of_thrown hR' (NodeHeap.thrown_failure _) rfl (hneeds ▸ hlt)⟩

theorem moveAssign_performed (htr : tr.Lawful) (hR : Represents tr (h.answering c) C)
    (ha : C.allocator i = some a) (hb : C.allocator j = some b) (ht : C.allocator t = none)
    (hop : c.op = .moveAssign i j t) (hneeds : h.needs c.op = (C.chain j).length) :
    Ends (moveAssign tr i j t) (h.answering c) fun r h' => ∃ C', Performed tr h C c r h' C' := by
  refine (moveAssign_ends htr hR ha hb ht).mono fun r h' hP => ?_
  obtain ⟨hij, rfl, hR'⟩ | ⟨hij, rfl, -, a', copies, hvalues, hR'⟩ |
    ⟨-, rfl, hlt, hR'⟩ := hP
  · refine ⟨C, .of_ok hR' ?_ (by simp [hop]) fun _ => rfl⟩
    rw [hop]
    exact (if_pos hij).symm
  · refine ⟨_, .of_ok hR' ?_ (by simp [hop]) fun _ => rfl⟩
    have hb' : (C.setAllocator i (some a')).allocator j = some b := by
      rw [C.setAllocator_of_ne (Ne.symm hij), hb]
    rw [hop, Chains.contents_setChain (C := (C.setAllocator i (some a')).setChain i copies) hb',
      Chains.contents_new, hvalues, ← Chains.contents_eq hb]
    exact (if_neg hij).symm
  · exact ⟨_, .of_thrown hR' (NodeHeap.thrown_failure _) rfl (hneeds ▸ hlt)⟩

theorem moveConstruct_performed (hR : Represents tr (h.answering c) C)
    (hi : C.allocator i = none) (hb : C.allocator j = some b) (hop : c.op = .moveConstruct i j) :
    Ends (moveConstruct i j) (h.answering c) fun r h' => ∃ C', Performed tr h C c r h' C' := by
  have hij : i ≠ j := by
    rintro rfl
    cases hi.symm.trans hb
  have hb' : (C.setAllocator i (some b)).allocator j = some b := by
    rw [C.setAllocator_of_ne hij.symm, hb]
  refine (moveConstruct_ends hR hi hb).mono fun r h' hends => ?_
  obtain ⟨rfl, hR'⟩ := hends
  refine ⟨_, .of_ok hR' ?_ (by simp [hop]) fun _ => rfl⟩
  rw [hop, Chains.contents_setChain (C := (C.setAllocator i (some b)).setChain i (C.chain j)) hb',
    Chains.contents_new, ← Chains.contents_eq hb]
  exact (if_neg hij).symm

theorem emplaceFront_performed {source : Source P T} {owner : ListId} (htr : tr.Lawful)
    (hR : Represents tr h C) (hR₁ : Represents tr (h.answering c) C)
    (ha : C.allocator i = some a) (hs : h.acceptsSource owner source)
    (hmeaning : h.meaning c.op = .push i (h.argument owner source)) (hneeds : h.needs c.op = 1)
    (hop : ∀ k, c.op ≠ .popFront k) :
    Ends (do let _ ← emplaceFront tr i source) (h.answering c) fun r h' =>
      ∃ C', Performed tr h C c r h' C' := by
  obtain ⟨v, hv, hread, hleave⟩ := hR.reads hs
  have ha₁ : (C.afterSource tr.movedFrom source).allocator i = some a := by
    rw [Chains.afterSource_allocator, ha]
  refine (emplaceFront_ends htr hR₁ ha hv).bind (fun p h₁ hP => ?_) fun x h₁ hP => ?_
  · obtain ⟨q, -, -, hR'⟩ | ⟨hx, -⟩ := hP
    · refine .pure ⟨_, .of_ok hR' ?_ hop fun _ => Chains.afterSource_released source⟩
      rw [hmeaning, Chains.contents_setChain ha₁, hleave]
      simp only [Sequences.apply, hread, ← hleave, Chains.contents_eq ha₁]
      rfl
    · cases hx
  · obtain ⟨q, hq, -⟩ | ⟨hx, hsupplied, hR'⟩ := hP
    · cases hq
    · obtain rfl := Except.error.inj hx
      exact ⟨_, .of_thrown hR' (NodeHeap.thrown_failure _) (Chains.afterSource_released source)
        (by omega)⟩

theorem popFront_performed (hR : Represents tr (h.answering c) C) (ha : C.allocator i = some a)
    (hop : c.op = .popFront i) :
    Ends (popFront tr i) (h.answering c) fun r h' => ∃ C', Performed tr h C c r h' C' := by
  have hcontents := Chains.contents_eq ha
  cases hi : C.chain i with
  | nil =>
    rw [hi] at hcontents
    refine .of_run (popFront_ends_nil hR ha hi) ⟨C, hR, .outOfRange i hop hcontents, fun _ => rfl,
      fun _ x hx => ?_, fun _ => rfl⟩
    rw [← Except.error.inj hx]
    rfl
  | cons e l =>
    rw [hi] at hcontents
    refine (popFront_ends hR ha hi).mono fun r h' hends => ?_
    obtain ⟨rfl, hR'⟩ := hends
    refine ⟨_, hR', .returns ?_ fun k hk hempty => ?_, fun _ => rfl, fun _ _ hx => (by cases hx),
      fun hr => by cases hr⟩
    · rw [hop, Chains.contents_setChain ha]
      simp only [NodeHeap.meaning, Sequences.apply, hcontents]
      rfl
    · rw [hop] at hk
      obtain rfl := ListOp.popFront.inj hk
      cases hcontents.symm.trans hempty

/-- **Every legal call on a heap of chains is defined**, leaves a heap of chains, and does what it
means unless it throws. -/
theorem Represents.perform (htr : tr.Lawful) (hR : Represents tr h C) (hc : h.legal c) :
    Ends (c.op.perform tr) (h.answering c) fun r h' => ∃ C', Performed tr h C c r h' C' := by
  obtain ⟨hop, hanswers⟩ := Bool.and_eq_true _ _ ▸ hc
  have hR₁ := hR.answering hanswers
  obtain ⟨op, allocations, constructions⟩ := c
  cases op with
  | construct this allocator =>
    have hi := hR.allocator_of_isNone hop
    refine .of_run rfl
      ⟨_, .of_ok (hR₁.newList hi allocator) ?_ (fun _ h => by cases h) fun _ => rfl⟩
    rw [Chains.contents_setAllocator, hR.absent this hi]
    rfl
  | copyConstruct this other =>
    simp only [NodeHeap.acceptsOp, Bool.and_eq_true] at hop
    obtain ⟨b, hb⟩ := hR.allocator_of_isSome hop.2
    exact Ends.step (object_run (hR₁.list hb)) (copyConstruct_performed htr hR₁
      (hR.allocator_of_isNone hop.1) hb _ rfl (hR.size_getD hb) fun _ h => by cases h)
  | copyConstructWith this other allocator =>
    simp only [NodeHeap.acceptsOp, Bool.and_eq_true] at hop
    obtain ⟨b, hb⟩ := hR.allocator_of_isSome hop.2
    exact copyConstruct_performed htr hR₁ (hR.allocator_of_isNone hop.1) hb _ rfl (hR.size_getD hb)
      fun _ h => by cases h
  | moveConstruct this other =>
    simp only [NodeHeap.acceptsOp, Bool.and_eq_true] at hop
    obtain ⟨b, hb⟩ := hR.allocator_of_isSome hop.2
    exact moveConstruct_performed hR₁ (hR.allocator_of_isNone hop.1) hb rfl
  | copyAssign this other copy =>
    simp only [NodeHeap.acceptsOp, Bool.and_eq_true] at hop
    obtain ⟨a, ha⟩ := hR.allocator_of_isSome hop.1.1
    obtain ⟨b, hb⟩ := hR.allocator_of_isSome hop.1.2
    exact copyAssign_performed htr hR₁ ha hb (hR.allocator_of_isNone hop.2) rfl (hR.size_getD hb)
  | moveAssign this other moved =>
    simp only [NodeHeap.acceptsOp, Bool.and_eq_true] at hop
    obtain ⟨a, ha⟩ := hR.allocator_of_isSome hop.1.1
    obtain ⟨b, hb⟩ := hR.allocator_of_isSome hop.1.2
    exact moveAssign_performed htr hR₁ ha hb (hR.allocator_of_isNone hop.2) rfl (hR.size_getD hb)
  | emplaceFront this source owner | pushFront this source owner =>
    simp only [NodeHeap.acceptsOp, Bool.and_eq_true] at hop
    obtain ⟨a, ha⟩ := hR.allocator_of_isSome hop.1
    exact emplaceFront_performed htr hR hR₁ ha hop.2 rfl rfl fun _ h => by cases h
  | popFront this =>
    obtain ⟨a, ha⟩ := hR.allocator_of_isSome hop
    exact popFront_performed hR₁ ha rfl
  | clear this =>
    obtain ⟨a, ha⟩ := hR.allocator_of_isSome hop
    refine (clear_ends hR₁ ha).mono fun r h' hends => ?_
    obtain ⟨rfl, hR'⟩ := hends
    exact ⟨_, .of_ok hR' (Chains.contents_setChain ha) (fun _ h => by cases h) fun _ => rfl⟩
  | releaseNodes this =>
    obtain ⟨a, ha⟩ := hR.allocator_of_isSome hop
    refine (releaseNodes_ends hR₁ ha).mono fun r h' hends => ?_
    obtain ⟨rfl, hR'⟩ := hends
    exact ⟨_, .of_ok hR' (Chains.contents_setChain ha) (fun _ h => by cases h)
      fun h => absurd rfl (h this)⟩
  | destroy this =>
    obtain ⟨a, ha⟩ := hR.allocator_of_isSome hop
    refine (destroyList_ends hR₁ ha).mono fun r h' hends => ?_
    obtain ⟨rfl, hR'⟩ := hends
    refine ⟨_, .of_ok hR' ?_ (fun _ h => by cases h) fun _ => rfl⟩
    rw [Chains.contents_setAllocator, Chains.contents_setChain ha, Function.update_idem]
    rfl

/-- One legal call of a run. -/
theorem Represents.next (htr : tr.Lawful) (hR : Represents tr h C)
    (hnext : h.next tr c = some h') : ∃ r C', c.op.perform tr (h.answering c) = some (r, h') ∧
      Performed tr h C c r h' C' := by
  rw [NodeHeap.next] at hnext
  split at hnext
  · next hlegal =>
    obtain ⟨r, h₁, hrun, C', hP⟩ := hR.perform htr hlegal
    rw [NodeHeap.perform, hrun, Option.map_some] at hnext
    obtain rfl := Option.some.inj hnext
    exact ⟨r, C', hrun, hP⟩
  · cases hnext

end Perform

/-! ## An instance -/

/-- Lists of numbers with numbered allocators, which are equal if their numbers are. -/
def numbers : Traits ℕ ℕ := ⟨fun a b => a == b, false, id, id, fun _ => 0, id⟩

theorem lawful_numbers : numbers.Lawful := by
  refine ⟨fun a => beq_self_eq_true a, fun a b hab => ?_, fun a b c hab hbc => ?_,
    fun a => beq_self_eq_true a⟩
  · exact beq_iff_eq.mpr (beq_iff_eq.mp hab).symm
  · exact beq_iff_eq.mpr ((beq_iff_eq.mp hab).trans (beq_iff_eq.mp hbc))

end Doost.Lists
