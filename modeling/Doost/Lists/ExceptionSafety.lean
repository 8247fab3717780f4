import Doost.Lists.Ledger

/-!
# What a failed operation leaves

A call that creates nodes fails at its `k`-th node if the allocation or the construction of that
node throws and none before does (`Call.FailsAt`). `Represents.throws` follows each operation to
such a failure: the chains are as before, except that a move assignment has moved from the first `k`
elements of its source, and that an element whose move has thrown is as its constructor left it.
That nothing else is left of the call is read off the log: the call adds its events to it
(`Extends`), the memory it asks for was free, and the record of a heap that no longer has that
memory says that each of its nodes has been destroyed and deallocated (`failed_call_undone`).
-/

namespace Doost.Lists

open Program Transition

variable {P A T : Type} [DecidableEq P]

/-! ## Failures -/

/-- The allocation or the construction of the `k`-th new node throws, and none before it does. -/
def Call.FailsAt (c : Call P A T) (k : ℕ) : Prop :=
  (∀ n < k, (∃ p, c.allocations[n]? = some (some p)) ∧ c.constructions[n]? = some true) ∧
    ¬ ((∃ p, c.allocations[k]? = some (some p)) ∧ c.constructions[k]? = some true)

/-- What a call that fails at its `k`-th node throws. -/
def Call.exception (c : Call P A T) (k : ℕ) : Failure :=
  if c.allocations[k]?.any Option.isSome then .element else .badAlloc

/-- The new element of the call is made by a move from the element at `q`. -/
def ListOp.MovesFrom (op : ListOp P A T) (q : P) : Prop :=
  ∃ this owner,
    op = .emplaceFront this (.moveFrom q) owner ∨ op = .pushFront this (.moveFrom q) owner

namespace NodeHeap

/-- The allocators of the two lists are equal. -/
def equalAllocators (tr : Traits A T) (h : NodeHeap P A T) (this other : ListId) : Bool :=
  ((h.lists this).bind fun t => (h.lists other).map fun o => tr.equal t.allocator o.allocator).getD
    false

/-- How many nodes a call creates if nothing throws. -/
def creates (tr : Traits A T) (h : NodeHeap P A T) : ListOp P A T → ℕ
  | .copyConstruct _ other => (h.size other).getD 0
  | .copyConstructWith _ other _ => (h.size other).getD 0
  | .copyAssign this other _ => if this = other then 0 else (h.size other).getD 0
  | .moveAssign this other _ =>
    if this = other ∨ tr.propagateOnMoveAssignment = true ∨ h.equalAllocators tr this other = true
    then 0
    else (h.size other).getD 0
  | .emplaceFront _ _ _ => 1
  | .pushFront _ _ _ => 1
  | _ => 0

end NodeHeap

section Failures

variable {c : Call P A T} {k : ℕ}

theorem le_length_takeWhile_iff {α : Type} {f : α → Bool} {l : List α} :
    k ≤ (l.takeWhile f).length ↔ ∀ n < k, l[n]?.any f = true := by
  induction l generalizing k with
  | nil =>
    refine ⟨fun hk n hn => absurd hn (by simp_all), fun h => Nat.le_of_not_lt fun hk => ?_⟩
    exact Bool.false_ne_true (h 0 hk)
  | cons x l ih =>
    cases hx : f x with
    | false =>
      rw [List.takeWhile_cons_of_neg (by simp [hx]), List.length_nil]
      refine ⟨fun hk n hn => absurd hn (by omega), fun h => Nat.le_of_not_lt fun hk => ?_⟩
      exact Bool.false_ne_true (hx.symm.trans (h 0 hk))
    | true =>
      rw [List.takeWhile_cons_of_pos hx, List.length_cons]
      cases k with
      | zero => simp
      | succ k =>
        rw [Nat.succ_le_succ_iff, ih]
        refine ⟨fun h n hn => ?_, fun h n hn => h (n + 1) (by omega)⟩
        cases n with
        | zero => exact hx
        | succ n => exact h n (by omega)

omit [DecidableEq P] in
/-- A call that fails at its `k`-th node has answers for `k` nodes. -/
theorem Call.FailsAt.supplied (hc : c.FailsAt k) (h : NodeHeap P A T) :
    (h.answering c).supplied = k := by
  have hanswer : ∀ n : ℕ,
      ((∃ p, c.allocations[n]? = some (some p)) ∧ c.constructions[n]? = some true) ↔
        c.allocations[n]?.any Option.isSome = true ∧ c.constructions[n]?.any id = true := by
    intro n
    rcases c.allocations[n]? with - | - | p <;> rcases c.constructions[n]? with - | - | - <;> simp
  have hsupplied : ∀ m : ℕ, m ≤ (h.answering c).supplied ↔
      ∀ n < m, (∃ p, c.allocations[n]? = some (some p)) ∧ c.constructions[n]? = some true := by
    intro m
    rw [NodeHeap.supplied, Nat.le_min, le_length_takeWhile_iff, le_length_takeWhile_iff]
    simp only [hanswer]
    exact ⟨fun hm n hn => ⟨hm.1 n hn, hm.2 n hn⟩, fun hm => ⟨fun n hn => (hm n hn).1,
      fun n hn => (hm n hn).2⟩⟩
  refine Nat.le_antisymm (Nat.le_of_not_lt fun hlt => ?_) ((hsupplied k).mpr hc.1)
  exact hc.2 ((hsupplied (k + 1)).mp hlt k (Nat.lt_succ_self k))

omit [DecidableEq P] in
theorem Call.FailsAt.failure (hc : c.FailsAt k) (h : NodeHeap P A T) :
    (h.answering c).failure = c.exception k := by
  rw [NodeHeap.failure, hc.supplied]
  rfl

end Failures

/-! ## The chains after a failure -/

/-- The chains after a call that has failed at its `k`-th node with the exception `x`. -/
def Chains.afterFailure (C : Chains P A T) (tr : Traits A T) (x : Failure) (k : ℕ) :
    ListOp P A T → Chains P A T
  | .moveAssign _ other _ => C.leaveUpTo .move tr x other k
  | .emplaceFront _ source _ => C.afterSource (tr.left x) source
  | .pushFront _ source _ => C.afterSource (tr.left x) source
  | _ => C

section Chains

variable {tr : Traits A T} {h h' : NodeHeap P A T} {C : Chains P A T} {c : Call P A T}
  {op : ListOp P A T} {i j : ListId} {k : ℕ} {x : Failure} {q : P}

omit [DecidableEq P] in
theorem Transfer.leave_addr (how : Transfer) (left : T → T) (e : Entry P A T) :
    (how.leave left e).addr = e.addr := by
  cases how <;> rfl

omit [DecidableEq P] in
/-- Copies and moves of elements leave the nodes in their places. -/
theorem Chains.addrs_leaveUpTo (how : Transfer) :
    addrs ((C.leaveUpTo how tr x j k).chain i) = addrs (C.chain i) := by
  rcases eq_or_ne i j with rfl | hij
  · have hhead : ∀ l : List (Entry P A T), addrs (l.modifyHead (how.leave (tr.left x))) =
        addrs l := by
      rintro (- | ⟨e, l⟩)
      · rfl
      · rw [List.modifyHead_cons, addrs_cons, addrs_cons, how.leave_addr]
    rw [Chains.leaveUpTo, Chains.setChain_self, addrs_append, hhead]
    conv_rhs => rw [← List.take_append_drop k (C.chain i), addrs_append]
    simp only [addrs, List.map_map, Function.comp_def, Transfer.leave_addr]
  · rw [Chains.leaveUpTo_chain_of_ne hij]

theorem Chains.addrs_afterFailure :
    addrs ((C.afterFailure tr x k op).chain i) = addrs (C.chain i) := by
  cases op with
  | moveAssign this other moved => exact Chains.addrs_leaveUpTo .move
  | emplaceFront this source owner | pushFront this source owner =>
    exact Chains.addrs_afterSource source i
  | _ => rfl

theorem Chains.allocator_afterFailure : (C.afterFailure tr x k op).allocator = C.allocator := by
  cases op with
  | emplaceFront this source owner | pushFront this source owner =>
    exact Chains.afterSource_allocator source
  | _ => rfl

theorem Chains.released_afterFailure : (C.afterFailure tr x k op).released = C.released := by
  cases op with
  | emplaceFront this source owner | pushFront this source owner =>
    exact Chains.afterSource_released source
  | _ => rfl

theorem Chains.afterFailure_chain (hi : ∀ this moved, op ≠ .moveAssign this i moved)
    (hq : ∀ q, ¬ op.MovesFrom q) : (C.afterFailure tr x k op).chain i = C.chain i := by
  cases op with
  | moveAssign this other moved =>
    refine Chains.leaveUpTo_chain_of_ne ?_ k
    rintro rfl
    exact hi this moved rfl
  | emplaceFront this source owner =>
    cases source with
    | value v | copyOf q => rfl
    | moveFrom q => exact absurd ⟨this, owner, .inl rfl⟩ (hq q)
  | pushFront this source owner =>
    cases source with
    | value v | copyOf q => rfl
    | moveFrom q => exact absurd ⟨this, owner, .inr rfl⟩ (hq q)
  | _ => rfl

theorem Chains.afterFailure_of_movesFrom (hq : op.MovesFrom q) :
    C.afterFailure tr x k op = C.moveOut (tr.left x) q := by
  obtain ⟨this, owner, rfl | rfl⟩ := hq <;> rfl

omit [DecidableEq P] in
/-- The objects depend on the allocators and on the addresses of the nodes. -/
theorem Represents.lists_eq (hR : Represents tr h C) : h.lists i = (C.allocator i).map fun a =>
    ⟨(addrs (C.chain i)).head?, (addrs (C.chain i)).length, a⟩ := by
  rw [hR.lists, addrs, List.head?_map, List.length_map]
  rfl

omit [DecidableEq P] in
theorem Represents.equalAllocators (hR : Represents tr h C) {a b : A} (ha : C.allocator i = some a)
    (hb : C.allocator j = some b) : h.equalAllocators tr i j = tr.equal a b := by
  rw [NodeHeap.equalAllocators, hR.list ha, hR.list hb]
  rfl

/-- Copy construction, whichever the allocator. -/
theorem copyConstruct_throws {b : A} (htr : tr.Lawful) (hR : Represents tr h C)
    (hi : C.allocator i = none) (hb : C.allocator j = some b) (a : A)
    (hlt : h.supplied < (C.chain j).length) :
    Ends (copyConstructWith tr i j a) h fun r h' => r = .error h.failure ∧
      Represents tr h' C := by
  refine (copyConstructWith_ends htr hR hi hb a).mono fun r h' hP => ?_
  rcases hP with ⟨-, hle, -⟩ | ⟨hr, -, hR'⟩
  · exact absurd hlt (Nat.not_lt_of_le hle)
  · exact ⟨hr, hR'⟩

theorem copyAssign_throws {t : ListId} {a b : A} (htr : tr.Lawful) (hR : Represents tr h C)
    (ha : C.allocator i = some a) (hb : C.allocator j = some b) (ht : C.allocator t = none)
    (hij : i ≠ j) (hlt : h.supplied < (C.chain j).length) :
    Ends (copyAssign tr i j t) h fun r h' => r = .error h.failure ∧ Represents tr h' C := by
  refine (copyAssign_ends htr hR ha hb ht).mono fun r h' hP => ?_
  rcases hP with ⟨-, hle, -⟩ | ⟨hr, -, hR'⟩
  · exact absurd hlt (Nat.not_lt_of_le (hle.resolve_left hij))
  · exact ⟨hr, hR'⟩

theorem moveAssign_throws {t : ListId} {a b : A} (htr : tr.Lawful) (hR : Represents tr h C)
    (ha : C.allocator i = some a) (hb : C.allocator j = some b) (ht : C.allocator t = none)
    (hij : i ≠ j) (hp : tr.propagateOnMoveAssignment = false) (hequal : tr.equal a b = false)
    (hlt : h.supplied < (C.chain j).length) :
    Ends (moveAssign tr i j t) h fun r h' => r = .error h.failure ∧
      Represents tr h' (C.leaveUpTo .move tr h.failure j h.supplied) := by
  refine (moveAssign_ends htr hR ha hb ht).mono fun r h' hP => ?_
  rcases hP with ⟨hij', -⟩ | ⟨-, -, hle, -⟩ | ⟨-, hr, -, hR'⟩
  · exact absurd hij' hij
  · rw [hp, hequal] at hle
    exact absurd hlt (Nat.not_lt_of_le (by simpa using hle))
  · exact ⟨hr, hR'⟩

theorem emplaceFront_throws {source : Source P T} {a : A} {v : T} (htr : tr.Lawful)
    (hR : Represents tr h C) (ha : C.allocator i = some a) (hv : C.Reads source v)
    (hlt : h.supplied = 0) :
    Ends (do let _ ← emplaceFront tr i source) h fun r h' => r = .error h.failure ∧
      Represents tr h' (C.afterSource (tr.left h.failure) source) := by
  refine (emplaceFront_ends htr hR ha hv).bind (fun p h₁ hP => ?_) fun x h₁ hP => ?_
  · rcases hP with ⟨-, -, hpos, -⟩ | ⟨hx, -⟩
    · exact absurd hlt (Nat.ne_of_gt hpos)
    · cases hx
  · rcases hP with ⟨p, hp, -⟩ | ⟨hx, -, hR'⟩
    · cases hp
    · exact ⟨congrArg _ (Except.error.inj hx), hR'⟩

/-- **A call that cannot create all its nodes throws** and leaves the chains as they were, up to the
elements that were to be moved from. -/
theorem Represents.throws (htr : tr.Lawful) (hR : Represents tr h C) (hc : h.legal c)
    (hlt : (h.answering c).supplied < h.creates tr c.op) :
    Ends (c.op.perform tr) (h.answering c) fun r h' => r = .error (h.answering c).failure ∧
      Represents tr h'
        (C.afterFailure tr (h.answering c).failure (h.answering c).supplied c.op) := by
  obtain ⟨hop, hanswers⟩ := Bool.and_eq_true _ _ ▸ hc
  have hR₁ := hR.answering hanswers
  obtain ⟨op, allocations, constructions⟩ := c
  cases op with
  | copyConstruct this other =>
    simp only [NodeHeap.acceptsOp, Bool.and_eq_true] at hop
    obtain ⟨b, hb⟩ := hR.allocator_of_isSome hop.2
    simp only [NodeHeap.creates, hR.size_getD hb] at hlt
    exact Ends.step (object_run (hR₁.list hb))
      (copyConstruct_throws htr hR₁ (hR.allocator_of_isNone hop.1) hb _ hlt)
  | copyConstructWith this other allocator =>
    simp only [NodeHeap.acceptsOp, Bool.and_eq_true] at hop
    obtain ⟨b, hb⟩ := hR.allocator_of_isSome hop.2
    simp only [NodeHeap.creates, hR.size_getD hb] at hlt
    exact copyConstruct_throws htr hR₁ (hR.allocator_of_isNone hop.1) hb _ hlt
  | copyAssign this other copy =>
    simp only [NodeHeap.acceptsOp, Bool.and_eq_true] at hop
    obtain ⟨a, ha⟩ := hR.allocator_of_isSome hop.1.1
    obtain ⟨b, hb⟩ := hR.allocator_of_isSome hop.1.2
    simp only [NodeHeap.creates, hR.size_getD hb] at hlt
    by_cases hne : this = other
    · rw [if_pos hne] at hlt
      cases hlt
    · rw [if_neg hne] at hlt
      exact copyAssign_throws htr hR₁ ha hb (hR.allocator_of_isNone hop.2) hne hlt
  | moveAssign this other moved =>
    simp only [NodeHeap.acceptsOp, Bool.and_eq_true] at hop
    obtain ⟨a, ha⟩ := hR.allocator_of_isSome hop.1.1
    obtain ⟨b, hb⟩ := hR.allocator_of_isSome hop.1.2
    simp only [NodeHeap.creates, hR.size_getD hb, hR.equalAllocators ha hb] at hlt
    by_cases htakes : this = other ∨ tr.propagateOnMoveAssignment = true ∨ tr.equal a b = true
    · rw [if_pos htakes] at hlt
      cases hlt
    · rw [if_neg htakes] at hlt
      simp only [not_or, Bool.not_eq_true] at htakes
      exact moveAssign_throws htr hR₁ ha hb (hR.allocator_of_isNone hop.2) htakes.1 htakes.2.1
        htakes.2.2 hlt
  | emplaceFront this source owner | pushFront this source owner =>
    simp only [NodeHeap.acceptsOp, Bool.and_eq_true] at hop
    obtain ⟨a, ha⟩ := hR.allocator_of_isSome hop.1
    obtain ⟨v, hv, -⟩ := hR.reads hop.2
    exact emplaceFront_throws htr hR₁ ha hv (Nat.lt_one_iff.mp hlt)
  | construct this allocator | moveConstruct this other => cases hlt
  | popFront this | clear this | releaseNodes this | destroy this => cases hlt

end Chains

/-! ## The events of one call -/

/-- The log goes on from that of `h₀`. All memory that was allocated since, and all that may be
allocated yet, are answers that `h₀` was given. -/
structure Extends (h₀ h : NodeHeap P A T) : Prop where
  log : ∃ events, h.log = events ++ h₀.log ∧
    ∀ p, Event.allocate p ∈ events → some p ∈ h₀.allocations
  answers : ∀ o ∈ h.allocations, o ∈ h₀.allocations

section Events

variable {tr : Traits A T} {h₀ h h' : NodeHeap P A T} {p : P}

omit [DecidableEq P] in
theorem Extends.refl : Extends h h := ⟨⟨[], rfl, fun _ hp => by cases hp⟩, fun _ ho => ho⟩

omit [DecidableEq P] in
theorem Extends.record (h₁ : Extends h₀ h) (e : Event P)
    (he : ∀ p, e = .allocate p → some p ∈ h₀.allocations) (hlog : h'.log = e :: h.log)
    (hanswers : ∀ o ∈ h'.allocations, o ∈ h.allocations) : Extends h₀ h' := by
  obtain ⟨⟨events, hevents, hallocated⟩, hleft⟩ := h₁
  refine ⟨⟨e :: events, by rw [hlog, hevents, List.cons_append], fun p hp => ?_⟩,
    fun o ho => hleft o (hanswers o ho)⟩
  rcases List.mem_cons.mp hp with hp | hp
  · exact he p hp.symm
  · exact hallocated p hp

omit [DecidableEq P] in
theorem stable_extends : Stable (Extends h₀) := by
  intro h h' hlog _ hallocations _ hE
  exact ⟨hlog ▸ hE.log, hallocations ▸ hE.answers⟩

theorem keeps_allocate_extends (a : A) :
    Keeps (Extends h₀) (allocate a : ListM P A T P) := by
  intro h r h' hE hrun
  rw [allocate] at hrun
  split at hrun
  · next p rest hal =>
    split at hrun
    · cases hrun
    · obtain ⟨-, rfl⟩ := Prod.mk.inj (Option.some.inj hrun)
      refine hE.record (.allocate p) (fun q hq => ?_) rfl fun o ho => ?_
      · obtain rfl := Event.allocate.inj hq
        exact hE.answers _ (hal ▸ List.mem_cons_self)
      · exact hal ▸ List.mem_cons_of_mem _ ho
  · next rest hal =>
    obtain ⟨-, rfl⟩ := Prod.mk.inj (Option.some.inj hrun)
    exact ⟨hE.log, fun o ho => hE.answers o (hal ▸ List.mem_cons_of_mem _ ho)⟩
  · obtain ⟨-, rfl⟩ := Prod.mk.inj (Option.some.inj hrun)
    exact hE

/-- A step that only adds an event on a node, no allocation. -/
theorem keeps_record_extends (e : Event P) (he : ∀ p, e ≠ .allocate p) (c) :
    Keeps (Extends h₀) (modify fun h => (h.setCell p c).record e : ListM P A T Unit) :=
  leads_modify fun _ hE => hE.record e (fun q hq => absurd hq (he q)) rfl fun _ ho => ho

theorem keeps_construct_extends (next : Option P) (source : Source P T) :
    Keeps (Extends h₀) (construct tr p next source : ListM P A T Unit) := by
  refine (keeps_fetch _).bind fun c => ?_
  obtain ⟨a, n | n⟩ := c
  · refine (keeps_fetch _).bind fun b => ?_
    cases b with
    | true =>
      exact (keeps_takeValue stable_extends source).bind fun v =>
        keeps_record_extends _ (fun _ hq => by cases hq) _
    | false => exact keeps_throw _
  · exact leads_undefined

theorem keeps_deallocate_extends (a : A) :
    Keeps (Extends h₀) (deallocate tr a p : ListM P A T Unit) := by
  refine (keeps_fetch _).bind fun c => ?_
  obtain ⟨b, n | n⟩ := c
  · dsimp only
    split
    · exact keeps_record_extends _ (fun _ hq => by cases hq) _
    · exact leads_undefined
  · exact leads_undefined

theorem keeps_destroy_extends : Keeps (Extends h₀) (destroy p : ListM P A T Unit) := by
  refine (keeps_fetch _).bind fun c => ?_
  obtain ⟨b, n | n⟩ := c
  · exact leads_undefined
  · exact keeps_record_extends _ (fun _ hq => by cases hq) _

/-- **Every operation adds its events to the log.** -/
theorem closed_extends : Closed tr (Extends h₀ : NodeHeap P A T → Prop) where
  stable := stable_extends
  createNode next source :=
    (keeps_fetch _).bind fun _ => (keeps_allocate_extends _).bind fun p =>
      Keeps.bind (Leads.onException (keeps_construct_extends next source)
        ((keeps_fetch _).bind fun _ => keeps_deallocate_extends _)) fun _ => keeps_pure p
  destroyNode :=
    keeps_destroy_extends.bind fun _ => (keeps_fetch _).bind fun _ => keeps_deallocate_extends _

/-- A node that was constructed after `log` and is no longer alive was destroyed after `log`. -/
theorem Lives.destroyed {events log : List (Event P)} (hlives : Lives (events ++ log))
    (hconstruct : Event.construct p ∈ events)
    (hlast : lastEvent (events ++ log) p ≠ some (.construct p)) : Event.destroy p ∈ events := by
  induction events with
  | nil => cases hconstruct
  | cons e events ih =>
    rw [List.cons_append] at hlives hlast
    obtain ⟨hfollow, hlives⟩ := hlives
    by_cases hp : p = e.node
    · rw [hp] at hconstruct hlast ih ⊢
      rw [lastEvent_cons_self] at hlast
      have hmem : Event.construct e.node ∈ events :=
        (List.mem_cons.mp hconstruct).resolve_left fun he => hlast (congrArg some he.symm)
      by_cases hbefore : lastEvent (events ++ log) e.node = some (.construct e.node)
      · -- only the destruction may follow
        rw [hbefore] at hfollow
        cases e with
        | destroy p => exact List.mem_cons_self
        | allocate p | construct p | deallocate p => cases hfollow
      · exact List.mem_cons_of_mem _ (ih hlives hmem hbefore)
    · rw [lastEvent_cons_of_ne hp] at hlast
      have hmem : Event.construct p ∈ events :=
        (List.mem_cons.mp hconstruct).resolve_left fun he => hp (congrArg Event.node he)
      exact List.mem_cons_of_mem _ (ih hlives hmem hlast)

/-- The latest event on memory that is no longer there, if there was one, is its deallocation. -/
theorem Recorded.deallocated (hR : Recorded h) (hnone : h.cells p = none) {e : Event P}
    (he : e ∈ h.log) (hp : e.node = p) : lastEvent h.log p = some (.deallocate p) := by
  have hphase := hR.cells p
  rw [NodeHeap.phase, hnone] at hphase
  cases hlast : lastEvent h.log p with
  | none =>
    have hno := List.find?_eq_none.mp hlast e he
    simp [hp] at hno
  | some f =>
    have hf : f.node = p := by simpa using List.find?_some hlast
    rw [hlast] at hphase
    cases f with
    | deallocate q =>
      obtain rfl : q = p := hf
      rfl
    | allocate q | construct q | destroy q => cases hphase

end Events

/-! ## Failed calls -/

namespace NodeHeap

/-- The nodes of a list whose first `k` elements have been moved from, and the next one by a
constructor or an `allocate` that threw `x`. -/
def movedUpTo (tr : Traits A T) (x : Failure) (k : ℕ) (nodes : List (P × T)) : List (P × T) :=
  (nodes.take k).map (Prod.map id tr.movedFrom) ++
    (nodes.drop k).modifyHead (Prod.map id (tr.left x))

/-- The nodes of a list after a change of the element at `q`. -/
def changedAt (left : T → T) (q : P) (nodes : List (P × T)) : List (P × T) :=
  nodes.map fun n => if n.1 = q then (n.1, left n.2) else n

/-- The call `op` on `h` has failed at its `k`-th node with the exception `x`, in `h'`. Every object
has its head, size and allocator, and every list its nodes and elements, but for those that a move
assignment has moved from, and for an element whose move has thrown; a copy constructor has made no
object. No memory is left of the call: what it allocated it has deallocated last, and destroyed if
it was constructed. -/
structure Undone (tr : Traits A T) (h h' : NodeHeap P A T) (op : ListOp P A T) (x : Failure)
    (k : ℕ) : Prop where
  lists : ∀ i, h'.lists i = h.lists i
  elements : ∀ i, (∀ this moved, op ≠ .moveAssign this i moved) → (∀ q, ¬ op.MovesFrom q) →
    h'.elements i = h.elements i
  argument : ∀ q, op.MovesFrom q → ∀ i,
    h'.elements i = (h.elements i).map (changedAt (tr.left x) q)
  source : ∀ this other moved, op = .moveAssign this other moved →
    ∃ nodes, h.elements other = some nodes ∧ h'.elements other = some (movedUpTo tr x k nodes)
  copied : ∀ this other a, op = .copyConstruct this other ∨ op = .copyConstructWith this other a →
    h'.lists this = none
  cells : ∀ p, h.cells p = none → h'.cells p = none
  lives : Lives h'.log
  log : ∃ events, h'.log = events ++ h.log ∧ ∀ p, Event.allocate p ∈ events →
    h'.cells p = none ∧ lastEvent h'.log p = some (.deallocate p) ∧
      (Event.construct p ∈ events → Event.destroy p ∈ events)

/-- All elements are as they were, but for the first `k` of the source of a move assignment, which
have been moved from. -/
structure Restored (tr : Traits A T) (h h' : NodeHeap P A T) (op : ListOp P A T) (k : ℕ) :
    Prop where
  elements : ∀ i, (∀ this moved, op ≠ .moveAssign this i moved) → h'.elements i = h.elements i
  source : ∀ this other moved, op = .moveAssign this other moved →
    ∃ nodes, h.elements other = some nodes ∧
      h'.elements other = some ((nodes.take k).map (Prod.map id tr.movedFrom) ++ nodes.drop k)

theorem changedAt_id (q : P) (nodes : List (P × T)) : changedAt id q nodes = nodes := by
  refine (List.map_congr_left fun n _ => ?_).trans (List.map_id nodes)
  exact ite_self n

/-- With constructors that leave an element alone when they throw, or if it was `allocate` that
threw, no value is lost. -/
theorem Undone.restored {tr : Traits A T} {h h' : NodeHeap P A T} {op : ListOp P A T} {x : Failure}
    {k : ℕ} (h₁ : h.Undone tr h' op x k) (hunharmed : x = .badAlloc ∨ tr.halfMovedFrom = id) :
    h.Restored tr h' op k := by
  have hleft : tr.left x = id := by
    rcases hunharmed with rfl | hunharmed
    · rfl
    · cases x <;> first | rfl | exact hunharmed
  refine ⟨fun i hi => ?_, fun this other moved hop => ?_⟩
  · by_cases hq : ∃ q, op.MovesFrom q
    · obtain ⟨q, hq⟩ := hq
      have hsame : changedAt (T := T) id q = id := funext (changedAt_id q)
      rw [h₁.argument q hq, hleft, hsame, Option.map_id, id]
    · exact h₁.elements i hi (not_exists.mp hq)
  · obtain ⟨nodes, hnodes, hnodes'⟩ := h₁.source this other moved hop
    refine ⟨nodes, hnodes, ?_⟩
    have hhead : ∀ l : List (P × T), l.modifyHead (Prod.map id id) = l := by
      rintro (- | ⟨n, l⟩) <;> rfl
    rw [hnodes', movedUpTo, hleft, hhead]

end NodeHeap

section Runs

variable {tr : Traits A T} {h h' : NodeHeap P A T} {C : Chains P A T} {c : Call P A T}

/-- A heap of chains with a record, as every run of legal calls leaves it. -/
theorem represents_recorded_next (htr : tr.Lawful) (hh : (∃ C, Represents tr h C) ∧ Recorded h)
    (hnext : h.next tr c = some h') : (∃ C, Represents tr h' C) ∧ Recorded h' := by
  obtain ⟨⟨C, hR⟩, hrecorded⟩ := hh
  obtain ⟨r, C', hrun, hP⟩ := hR.next htr hnext
  exact ⟨⟨C', hP.represents⟩, hrecorded.perform hrun⟩

theorem represents_recorded_run (htr : tr.Lawful) (accessible : P → Bool)
    {calls : List (Call P A T)}
    (hrun : run (NodeHeap.next tr) (NodeHeap.start accessible) calls = some h) :
    (∃ C, Represents tr h C) ∧ Recorded h :=
  run_invariant (fun _ _ _ hh (_ : True) hnext => represents_recorded_next htr hh hnext)
    ⟨⟨_, represents_start tr accessible⟩, trivial, fun _ => rfl⟩ (fun _ _ => trivial) hrun

omit [DecidableEq P] in
/-- What is said to have been released may be taken to be memory that is still there. -/
theorem Represents.trim (hR : Represents tr h C) :
    Represents tr h { C with released := fun p => C.released p ∧ (h.cells p).isSome } :=
  { hR with
    owned := fun p x hx => (hR.owned p x hx).imp_left fun hp => ⟨hp, by rw [hx]; rfl⟩ }

/-- A failed call leaves no memory that was not there before. -/
theorem Represents.cells_none {x : Failure} {k : ℕ} (hR : Represents tr h C)
    (hreleased : ∀ p, C.released p → (h.cells p).isSome)
    (hR' : Represents tr h' (C.afterFailure tr x k c.op)) {p : P} (hp : h.cells p = none) :
    h'.cells p = none := by
  cases hx : h'.cells p with
  | none => rfl
  | some y =>
    rcases hR'.owned p y hx with hrel | ⟨i, hi⟩
    · rw [Chains.released_afterFailure] at hrel
      have hsome := hreleased p hrel
      rw [hp] at hsome
      cases hsome
    · rw [Chains.addrs_afterFailure] at hi
      exact absurd hi (hR.notMem_of_none hp)

/-- The elements after a failed call. -/
theorem Represents.elements_afterFailure {x : Failure} {k : ℕ} (hR : Represents tr h C)
    (hR' : Represents tr h' (C.afterFailure tr x k c.op)) :
    (∀ i, (∀ this moved, c.op ≠ .moveAssign this i moved) → (∀ q, ¬ c.op.MovesFrom q) →
      h'.elements i = h.elements i) ∧
    ∀ q, c.op.MovesFrom q → ∀ i,
      h'.elements i = (h.elements i).map (NodeHeap.changedAt (tr.left x) q) := by
  refine ⟨fun i hi hq => ?_, fun q hq i => ?_⟩
  · rw [hR'.elements, hR.elements, Chains.afterFailure_chain hi hq, Chains.allocator_afterFailure]
  · rw [hR'.elements, hR.elements, Chains.afterFailure_of_movesFrom hq, Option.map_map]
    refine congrArg (fun f => Option.map f (C.allocator i)) (funext fun a => ?_)
    simp only [Chains.moveOut, NodeHeap.changedAt, List.map_map, Function.comp_def]
    refine List.map_congr_left fun e _ => ?_
    rw [Entry.moveOut]
    split <;> rfl

/-- The chains of a failed call in what the program sees. -/
theorem Represents.undone {x : Failure} {k : ℕ} (hR : Represents tr h C) (hc : h.legal c)
    (hreleased : ∀ p, C.released p → (h.cells p).isSome) (hrecorded : Recorded h')
    (hextends : Extends (h.answering c) h')
    (hR' : Represents tr h' (C.afterFailure tr x k c.op)) : h.Undone tr h' c.op x k := by
  obtain ⟨hop, hanswers⟩ := Bool.and_eq_true _ _ ▸ hc
  have hlists : ∀ i, h'.lists i = h.lists i := fun i => by
    rw [hR'.lists_eq, hR.lists_eq, Chains.addrs_afterFailure, Chains.allocator_afterFailure]
  have hcells : ∀ p, h.cells p = none → h'.cells p = none :=
    fun p hp => hR.cells_none hreleased hR' hp
  obtain ⟨helements, hargument⟩ := hR.elements_afterFailure hR'
  refine ⟨hlists, helements, hargument, fun this other moved hmove => ?_,
    fun this other a hcopy => ?_, hcells, hrecorded.lives, ?_⟩
  · rw [hmove] at hop hR'
    simp only [NodeHeap.acceptsOp, Bool.and_eq_true] at hop
    obtain ⟨b, hb⟩ := hR.allocator_of_isSome hop.1.2
    have hb' : (C.leaveUpTo .move tr x other k).allocator other = some b := hb
    have hhead : ∀ l : List (Entry P A T), (l.modifyHead (Transfer.move.leave (tr.left x))).map
        (fun e => (e.addr, e.value)) =
          (l.map fun e => (e.addr, e.value)).modifyHead (Prod.map id (tr.left x)) := by
      rintro (- | ⟨e, l⟩) <;> rfl
    refine ⟨_, by rw [hR.elements, hb, Option.map_some], ?_⟩
    rw [hR'.elements, Chains.afterFailure, hb', Option.map_some, Chains.leaveUpTo,
      Chains.setChain_self, NodeHeap.movedUpTo, List.map_append, hhead]
    simp only [List.map_map, List.map_take, List.map_drop, Function.comp_def, Transfer.leave,
      Prod.map, id]
  · rw [hlists]
    rcases hcopy with hcopy | hcopy <;> rw [hcopy] at hop <;>
      simp only [NodeHeap.acceptsOp, Bool.and_eq_true, Option.isNone_iff_eq_none] at hop <;>
      exact hop.1
  · obtain ⟨⟨events, hlog, hallocated⟩, -⟩ := hextends
    refine ⟨events, hlog, fun p hp => ?_⟩
    have hfree : h.cells p = none :=
      ((hR.answering hanswers).supplied.fresh p (hallocated p hp)).1
    have hmem : Event.allocate p ∈ h'.log := hlog ▸ List.mem_append_left _ hp
    have hlast := hrecorded.deallocated (hcells p hfree) hmem rfl
    refine ⟨hcells p hfree, hlast, fun hconstruct => ?_⟩
    have hlives := hrecorded.lives
    rw [hlog] at hlives hlast
    exact hlives.destroyed hconstruct fun h => by cases hlast.symm.trans h

/-- **What a failed operation leaves.** After any run of legal calls, a call that fails at its
`k`-th node, in `allocate` or in the element's constructor, throws and is undone, up to the elements
that it was to move from. If it was `allocate` that threw, or with constructors that leave an
element alone when they throw, all values but those before the failure are as they were. -/
theorem failed_call_undone (htr : tr.Lawful) (accessible : P → Bool) (calls : List (Call P A T))
    (h : NodeHeap P A T)
    (hrun : run (NodeHeap.next tr) (NodeHeap.start accessible) calls = some h)
    (c : Call P A T) (hc : h.legal c) (k : ℕ) (hfails : c.FailsAt k)
    (hk : k < h.creates tr c.op) :
    ∃ h', h.perform tr c = some (.error (c.exception k), h') ∧
      h.Undone tr h' c.op (c.exception k) k ∧
      (c.exception k = .badAlloc ∨ tr.halfMovedFrom = id → h.Restored tr h' c.op k) := by
  obtain ⟨⟨C, hC⟩, hrecorded⟩ := represents_recorded_run htr accessible hrun
  have hR := hC.trim
  have hsupplied := hfails.supplied h
  obtain ⟨r, h', hperform, rfl, hR'⟩ := hR.throws htr hc (hsupplied.symm ▸ hk)
  rw [hsupplied, hfails.failure h] at hR'
  rw [hfails.failure h] at hperform
  have hundone := hR.undone hc (fun _ hp => hp.2) (hrecorded.perform hperform)
    (closed_extends.perform c.op _ _ _ .refl hperform) hR'
  exact ⟨h', hperform, hundone, hundone.restored⟩

/-- Lists of pairs of numbers. To move a pair is to move one number after the other, which may
throw: then the first one has been moved already. -/
def pairs : Traits ℕ (ℕ × ℕ) :=
  ⟨fun a b => a == b, false, id, id, fun _ => (0, 0), fun v => (0, v.2)⟩

theorem lawful_pairs : pairs.Lawful :=
  ⟨lawful_numbers.refl, lawful_numbers.symm, lawful_numbers.trans, lawful_numbers.rebind⟩

/-- List 0 has the elements (5, 6), (3, 4) and (1, 2), and list 2, with another allocator, has the
element (3, 4). -/
def twoAllocatorsRun : List (Call ℕ ℕ (ℕ × ℕ)) :=
  [⟨.construct 0 7, [], []⟩, ⟨.pushFront 0 (.value (1, 2)) 0, [some 10], [true]⟩,
    ⟨.pushFront 0 (.value (3, 4)) 0, [some 11], [true]⟩,
    ⟨.pushFront 0 (.value (5, 6)) 0, [some 12], [true]⟩,
    ⟨.construct 2 8, [], []⟩, ⟨.pushFront 2 (.copyOf 11) 0, [some 30], [true]⟩]

/-- A move of list 0 to list 2 whose second element constructor throws. -/
def halfMoved : Call ℕ ℕ (ℕ × ℕ) := ⟨.moveAssign 2 0 9, [some 20, some 21], [true, false]⟩

theorem halfMoved_failsAt : halfMoved.FailsAt 1 := by
  refine ⟨fun n hn => ?_, fun hsecond => by cases hsecond.2⟩
  obtain rfl := Nat.lt_one_iff.mp hn
  exact ⟨⟨20, rfl⟩, rfl⟩

/-- The front of list 0 is to be moved into a new node of that list, and the constructor throws. -/
def halfPushed : Call ℕ ℕ (ℕ × ℕ) := ⟨.pushFront 0 (.moveFrom 12) 0, [some 20], [false]⟩

/-- The first element of list 0 has been moved from and the second one half, and list 2 has the
element it had. -/
theorem failed_call_undone_halfMoved :
    ∃ h h', run (NodeHeap.next pairs) (NodeHeap.start fun _ => true) twoAllocatorsRun = some h ∧
      h.perform pairs halfMoved = some (.error .element, h') ∧
      h.Undone pairs h' halfMoved.op .element 1 ∧
      h'.elements 0 = some [(12, 0, 0), (11, 0, 4), (10, 1, 2)] ∧
      h'.elements 2 = some [(30, 3, 4)] := by
  have hfacts : (run (NodeHeap.next pairs) (NodeHeap.start fun _ => true)
      twoAllocatorsRun).map (fun h => decide (h.legal halfMoved = true ∧
        h.creates pairs halfMoved.op = 3 ∧
        h.elements 0 = some [(12, 5, 6), (11, 3, 4), (10, 1, 2)] ∧
        h.elements 2 = some [(30, 3, 4)])) = some true := by
    decide +kernel
  obtain ⟨h, hrun, hh⟩ := Option.map_eq_some_iff.mp hfacts
  obtain ⟨hlegal, hcreates, hsource, htarget⟩ := of_decide_eq_true hh
  obtain ⟨h', hperform, hundone, -⟩ := failed_call_undone lawful_pairs _ twoAllocatorsRun h hrun
    halfMoved hlegal 1 halfMoved_failsAt (hcreates ▸ by decide)
  obtain ⟨nodes, hnodes, hmoved⟩ := hundone.source 2 0 9 rfl
  obtain rfl := Option.some.inj (hsource.symm.trans hnodes)
  refine ⟨h, h', hrun, hperform, hundone, hmoved, ?_⟩
  rw [hundone.elements 2 (fun this moved heq => by cases heq) fun q hq => ?_]
  · exact htarget
  · obtain ⟨this, owner, hop | hop⟩ := hq <;> cases hop

/-- A `push_front` that throws changes a value of its list, and a move assignment that throws has
changed the element at which it did. -/
theorem failed_call_changes_element :
    ∃ h h₁ h₂, run (NodeHeap.next pairs) (NodeHeap.start fun _ => true) twoAllocatorsRun =
        some h ∧
      h.elements 0 = some [(12, 5, 6), (11, 3, 4), (10, 1, 2)] ∧
      (h.legal halfPushed = true ∧ halfPushed.FailsAt 0 ∧
        h.perform pairs halfPushed = some (.error .element, h₁) ∧
        h₁.elements 0 = some [(12, 0, 6), (11, 3, 4), (10, 1, 2)]) ∧
      h.legal halfMoved = true ∧ halfMoved.FailsAt 1 ∧
        h.perform pairs halfMoved = some (.error .element, h₂) ∧
        h₂.elements 0 = some [(12, 0, 0), (11, 0, 4), (10, 1, 2)] := by
  have hfacts : ((run (NodeHeap.next pairs) (NodeHeap.start fun _ => true) twoAllocatorsRun).bind
      fun h => (h.perform pairs halfPushed).bind fun s₁ => (h.perform pairs halfMoved).map fun s₂ =>
        decide (h.elements 0 = some [(12, 5, 6), (11, 3, 4), (10, 1, 2)] ∧
          h.legal halfPushed = true ∧ h.legal halfMoved = true ∧
          s₁.1 = .error .element ∧ s₁.2.elements 0 = some [(12, 0, 6), (11, 3, 4), (10, 1, 2)] ∧
          s₂.1 = .error .element ∧ s₂.2.elements 0 = some [(12, 0, 0), (11, 0, 4), (10, 1, 2)])) =
      some true := by
    decide +kernel
  obtain ⟨h, hrun, hh⟩ := Option.bind_eq_some_iff.mp hfacts
  obtain ⟨⟨r₁, h₁⟩, hpush, hh₁⟩ := Option.bind_eq_some_iff.mp hh
  obtain ⟨⟨r₂, h₂⟩, hmove, hh₂⟩ := Option.map_eq_some_iff.mp hh₁
  obtain ⟨hbefore, hlegal₁, hlegal₂, rfl, hpushed, rfl, hmoved⟩ := of_decide_eq_true hh₂
  have hfails : halfPushed.FailsAt 0 :=
    ⟨fun n hn => absurd hn (Nat.not_lt_zero n), fun hsecond => by cases hsecond.2⟩
  exact ⟨h, h₁, h₂, hrun, hbefore, ⟨hlegal₁, hfails, hpush, hpushed⟩, hlegal₂, halfMoved_failsAt,
    hmove, hmoved⟩

end Runs

end Doost.Lists
