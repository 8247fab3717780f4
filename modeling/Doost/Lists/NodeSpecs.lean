import Doost.Lists.Chains

/-!
# Creating and destroying a node

`createNode_ends` and `destroyNode_run` say what `create_node` and `destroy_node` do to a heap of
chains, for every answer of the allocator and of the element's constructor. Between `create_node`
and the assignment that links the node, the heap holds one node that no list owns (`Orphan`).
-/

namespace Doost.Lists

open Program

variable {P A T : Type} [DecidableEq P]

/-! ## Runs of the accesses -/

section Accesses

variable {h : NodeHeap P A T} {i : ListId} {o : ListObject P A} {p : P} {n : Node P T}

omit [DecidableEq P] in
theorem object_run (ho : h.lists i = some o) :
    (object i : ListM P A T _) h = some (.ok o, h) :=
  fetch_run (fun h : NodeHeap P A T => h.lists i) ho

omit [DecidableEq P] in
theorem modifyObject_run (ho : h.lists i = some o) (f) :
    (modifyObject i f : ListM P A T _) h = some (.ok (), h.setList i (some (f o))) :=
  bind_run (object_run ho)

omit [DecidableEq P] in
theorem node_run (hn : h.node? p = some n) : (node p : ListM P A T _) h = some (.ok n, h) :=
  fetch_run (fun h : NodeHeap P A T => h.node? p) hn

omit [DecidableEq P] in
theorem cell_run {x : A × Option (Node P T)} (hp : h.cells p = some x) :
    (cell p : ListM P A T _) h = some (.ok x, h) :=
  fetch_run (fun h : NodeHeap P A T => h.cells p) hp

theorem modifyNode_run (hn : h.node? p = some n) (f) :
    (modifyNode p f : ListM P A T _) h = some (.ok (), h.mapNode p f) :=
  bind_run (node_run hn)

theorem destroy_run {a : A} (hp : h.cells p = some (a, some n)) :
    (destroy p : ListM P A T _) h =
      some (.ok (), (h.setCell p (some (a, none))).record (.destroy p)) :=
  bind_run (cell_run hp)

theorem deallocate_run {tr : Traits A T} {a b : A} (hp : h.cells p = some (b, none))
    (hab : tr.equal b a = true) : (deallocate tr a p : ListM P A T _) h =
      some (.ok (), (h.setCell p none).record (.deallocate p)) := by
  refine (bind_run (cell_run hp)).trans ?_
  simp only [hab, if_true]
  rfl

end Accesses

/-! ## Exceptions -/

theorem Failure.caught_of_thrown {x : Failure} (hx : x.thrown = true) : x.caught = true := by
  cases x <;> first | rfl | cases hx

omit [DecidableEq P] in
/-- The rule for a `try` block that throws only what `allocate` and the constructors throw. -/
theorem tryCatch_ends {α : Type} {x : ListM P A T α} {cleanup : ListM P A T Unit}
    {h : NodeHeap P A T} {Q Q' : Except Failure α → NodeHeap P A T → Prop} (hx : Ends x h Q)
    (hthrown : ∀ e h', Q (.error e) h' → e.thrown = true)
    (hok : ∀ a h', Q (.ok a) h' → Q' (.ok a) h')
    (herror : ∀ e h', Q (.error e) h' →
      Ends cleanup h' fun r h'' => r = .ok () ∧ Q' (.error e) h'') :
    Ends (onException Failure.caught x cleanup) h Q' := by
  refine hx.onException hok (fun e h' _ hQ => herror e h' hQ) fun e h' he hQ => ?_
  rw [Failure.caught_of_thrown (hthrown e h' hQ)] at he
  cases he

/-! ## Cells -/

namespace NodeHeap

variable (h : NodeHeap P A T) (p q : P)

@[simp] theorem setCell_cells_self (c) : (h.setCell p c).cells p = c :=
  Function.update_self ..

variable {p q} in
theorem setCell_cells_of_ne (hq : q ≠ p) (c) : (h.setCell p c).cells q = h.cells q :=
  Function.update_of_ne hq ..

theorem mapNode_cells_self (f) :
    (h.mapNode p f).cells p = (h.cells p).map fun c => (c.1, c.2.map f) :=
  Function.update_self ..

variable {p q} in
theorem mapNode_cells_of_ne (hq : q ≠ p) (f) : (h.mapNode p f).cells q = h.cells q :=
  Function.update_of_ne hq ..

omit [DecidableEq P] in
@[simp] theorem setList_cells (i o) : (h.setList i o).cells = h.cells := rfl

omit [DecidableEq P] in
@[simp] theorem setList_allocations (i o) : (h.setList i o).allocations = h.allocations := rfl

omit [DecidableEq P] in
@[simp] theorem setList_constructions (i o) :
    (h.setList i o).constructions = h.constructions := rfl

omit [DecidableEq P] in
@[simp] theorem setList_lists_self (i o) : (h.setList i o).lists i = o :=
  Function.update_self ..

/-- At least `n` nodes can be allocated and constructed before something throws. -/
def supplies (n : ℕ) : Bool :=
  n ≤ (h.allocations.takeWhile Option.isSome).length && n ≤ (h.constructions.takeWhile id).length

/-- How many nodes can be allocated and constructed before something throws. -/
def supplied : ℕ :=
  min (h.allocations.takeWhile Option.isSome).length (h.constructions.takeWhile id).length

omit [DecidableEq P] in
theorem supplies_iff {h : NodeHeap P A T} {n : ℕ} : h.supplies n ↔ n ≤ h.supplied := by
  rw [supplies, supplied, Nat.le_min, Bool.and_eq_true, decide_eq_true_eq, decide_eq_true_eq]

variable {h} {h' : NodeHeap P A T}

omit [DecidableEq P] in
theorem supplied_congr (hallocations : h'.allocations = h.allocations)
    (hconstructions : h'.constructions = h.constructions) : h'.supplied = h.supplied := by
  rw [supplied, supplied, hallocations, hconstructions]

omit [DecidableEq P] in
theorem supplied_of_allocate_throws (h₀ : h.allocations.takeWhile Option.isSome = []) :
    h.supplied = 0 := by
  rw [supplied, h₀, List.length_nil, Nat.zero_min]

omit [DecidableEq P] in
theorem supplied_of_construct_throws (h₀ : h.constructions.takeWhile id = []) :
    h.supplied = 0 := by
  rw [supplied, h₀, List.length_nil, Nat.min_zero]

omit [DecidableEq P] in
/-- A node has been allocated and constructed. -/
theorem supplied_succ (p : P) (hallocations : h.allocations = some p :: h'.allocations)
    (hconstructions : h.constructions = true :: h'.constructions) :
    h.supplied = h'.supplied + 1 := by
  rw [supplied, hallocations, hconstructions, List.takeWhile_cons_of_pos rfl,
    List.takeWhile_cons_of_pos rfl, List.length_cons, List.length_cons, Nat.succ_min_succ]
  rfl

/-- The exception of the first node that cannot be created: it is allocated and not constructed, or
not allocated. -/
def failure (h : NodeHeap P A T) : Failure :=
  if h.allocations[h.supplied]?.any Option.isSome then .element else .badAlloc

omit [DecidableEq P] in
theorem thrown_failure (h : NodeHeap P A T) : h.failure.thrown = true := by
  rw [failure]
  split <;> rfl

omit [DecidableEq P] in
theorem failure_congr (hallocations : h'.allocations = h.allocations)
    (hconstructions : h'.constructions = h.constructions) : h'.failure = h.failure := by
  rw [failure, supplied_congr hallocations hconstructions, hallocations, failure]

omit [DecidableEq P] in
theorem failure_succ (p : P) (hallocations : h.allocations = some p :: h'.allocations)
    (hconstructions : h.constructions = true :: h'.constructions) :
    h.failure = h'.failure := by
  rw [failure, supplied_succ p hallocations hconstructions, hallocations, List.getElem?_cons_succ,
    failure]

omit [DecidableEq P] in
theorem failure_of_allocate_throws (hallocations : h.allocations.takeWhile Option.isSome = []) :
    h.failure = .badAlloc := by
  have hfirst : h.allocations[0]?.any Option.isSome = false := by
    cases hal : h.allocations with
    | nil => rfl
    | cons o rest =>
      rw [hal, List.takeWhile_cons] at hallocations
      cases o with
      | none => rfl
      | some p => cases hallocations
  rw [failure, supplied_of_allocate_throws hallocations, hfirst, if_neg Bool.false_ne_true]

omit [DecidableEq P] in
theorem failure_of_construct_throws (p : P) {rest : List (Option P)}
    (hallocations : h.allocations = some p :: rest)
    (hconstructions : h.constructions.takeWhile id = []) : h.failure = .element := by
  rw [failure, supplied_of_construct_throws hconstructions, hallocations]
  rfl

end NodeHeap

/-- The traits of an allocator: `==` is an equivalence, and rebinding preserves it. -/
structure Traits.Lawful (tr : Traits A T) : Prop where
  refl : ∀ a, tr.equal a a = true
  symm : ∀ a b, tr.equal a b = true → tr.equal b a = true
  trans : ∀ a b c, tr.equal a b = true → tr.equal b c = true → tr.equal a c = true
  rebind : ∀ a, tr.equal (tr.rebind a) a = true

/-! ## Moving out of an element -/

/-- What a failed attempt to move leaves in an element: an allocation that throws comes before the
move. -/
def Traits.left (tr : Traits A T) : Failure → T → T
  | .element => tr.halfMovedFrom
  | _ => id

/-- The element at `q` has become what `left` makes of it. -/
def Entry.moveOut (left : T → T) (q : P) (e : Entry P A T) : Entry P A T :=
  if e.addr = q then { e with value := left e.value } else e

def Chains.moveOut (C : Chains P A T) (left : T → T) (q : P) : Chains P A T :=
  { C with chain := fun i => (C.chain i).map (Entry.moveOut left q) }

/-- The chains after a constructor has run, or has thrown, on `source`. -/
def Chains.afterSource (C : Chains P A T) (left : T → T) : Source P T → Chains P A T
  | .value _ => C
  | .copyOf _ => C
  | .moveFrom q => C.moveOut left q

/-- A new element made from `source` has the value `v`. -/
def Chains.Reads (C : Chains P A T) : Source P T → T → Prop
  | .value w, v => w = v
  | .copyOf q, v => ∃ i, ∃ e ∈ C.chain i, e.addr = q ∧ e.value = v
  | .moveFrom q, v => ∃ i, ∃ e ∈ C.chain i, e.addr = q ∧ e.value = v

section MoveOut

variable {tr : Traits A T} {left : T → T} {h h' : NodeHeap P A T} {C : Chains P A T} {p q : P}

@[simp] theorem Entry.moveOut_addr (e : Entry P A T) : (e.moveOut left q).addr = e.addr := by
  rw [Entry.moveOut]
  split <;> rfl

@[simp] theorem Entry.moveOut_allocator (e : Entry P A T) :
    (e.moveOut left q).allocator = e.allocator := by
  rw [Entry.moveOut]
  split <;> rfl

@[simp] theorem first_map_moveOut (l : List (Entry P A T)) :
    first (l.map (Entry.moveOut left q)) = first l := by
  cases l <;> simp

@[simp] theorem addrs_map_moveOut (l : List (Entry P A T)) :
    addrs (l.map (Entry.moveOut left q)) = addrs l := by
  simp [addrs, Function.comp_def]

theorem Linked.moveOut {l : List (Entry P A T)} (hl : Linked h.cells l) :
    Linked (h.mapNode q fun n => { n with value := left n.value }).cells
      (l.map (Entry.moveOut left q)) := by
  induction l with
  | nil => trivial
  | cons e l ih =>
    refine ⟨?_, ih hl.2⟩
    rw [first_map_moveOut, Entry.moveOut_addr, Entry.moveOut_allocator]
    by_cases he : e.addr = q
    · subst he
      rw [NodeHeap.mapNode_cells_self, hl.1, Entry.moveOut, if_pos rfl]
      rfl
    · rw [NodeHeap.mapNode_cells_of_ne h he, hl.1, Entry.moveOut, if_neg he]

omit [DecidableEq P] in
/-- Constructor answers and the log do not matter. -/
theorem Represents.congr (hR : Represents tr h C) (hlists : h'.lists = h.lists)
    (hcells : h'.cells = h.cells) (hallocations : h'.allocations = h.allocations)
    (haccessible : h'.accessible = h.accessible) : Represents tr h' C := by
  obtain ⟨lists, absent, linked, owned, nodup, apart, equal, ⟨fresh, distinct⟩⟩ := hR
  exact ⟨by rwa [hlists], absent, by rwa [hcells], by rwa [hcells], nodup, apart, equal,
    ⟨by rwa [hallocations, hcells, haccessible], by rwa [hallocations]⟩⟩

theorem Represents.moveOut (hR : Represents tr h C) (hq : ∃ i, q ∈ addrs (C.chain i)) :
    Represents tr (h.mapNode q fun n => { n with value := left n.value })
      (C.moveOut left q) where
  lists := fun i => by
    refine (hR.lists i).trans ?_
    simp only [Chains.moveOut, first_map_moveOut, List.length_map]
  absent := fun i hi => by
    simp only [Chains.moveOut, hR.absent i hi, List.map_nil]
  linked := fun i => (hR.linked i).moveOut
  owned := fun p x hx => by
    simp only [Chains.moveOut, addrs_map_moveOut]
    by_cases hp : p = q
    · exact .inr (hp ▸ hq)
    · rw [NodeHeap.mapNode_cells_of_ne h hp] at hx
      exact hR.owned p x hx
  nodup := fun i => by
    simp only [Chains.moveOut, addrs_map_moveOut]
    exact hR.nodup i
  apart := fun i j p hi hj => by
    simp only [Chains.moveOut, addrs_map_moveOut] at hi hj
    exact hR.apart i j p hi hj
  equal := fun i a e ha he => by
    obtain ⟨e', he', rfl⟩ := List.mem_map.mp he
    rw [Entry.moveOut_allocator]
    exact hR.equal i a e' ha he'
  supplied := by
    refine ⟨fun p hp => ⟨?_, (hR.supplied.fresh p hp).2⟩, hR.supplied.distinct⟩
    have hpq : p ≠ q := by
      rintro rfl
      obtain ⟨i, hi⟩ := hq
      exact hR.notMem_of_none (hR.supplied.fresh p hp).1 hi
    rw [NodeHeap.mapNode_cells_of_ne h hpq]
    exact (hR.supplied.fresh p hp).1

omit [DecidableEq P] in
/-- The cell of a node of a chain. -/
theorem Represents.node?_of_mem (hR : Represents tr h C) {i : ListId} {e : Entry P A T}
    (he : e ∈ C.chain i) : ∃ next, h.node? e.addr = some ⟨next, e.value⟩ := by
  obtain ⟨l, l', hl⟩ := List.append_of_mem he
  have hcell := (hl ▸ hR.linked i : Linked h.cells (l ++ e :: l')).cell
  exact ⟨first l', by rw [NodeHeap.node?, hcell]; rfl⟩

@[simp] theorem Chains.moveOut_id (C : Chains P A T) (q : P) : C.moveOut id q = C := by
  have hentry : (Entry.moveOut id q : Entry P A T → Entry P A T) = id := by
    funext e
    rw [Entry.moveOut]
    split <;> rfl
  simp only [Chains.moveOut, hentry, List.map_id]

/-- A constructor that changes no source, or has not run. -/
@[simp] theorem Chains.afterSource_id (C : Chains P A T) (source : Source P T) :
    C.afterSource id source = C := by
  cases source with
  | value v | copyOf q => rfl
  | moveFrom q => exact C.moveOut_id q

@[simp] theorem Chains.afterSource_allocator (source : Source P T) :
    (C.afterSource left source).allocator = C.allocator := by
  cases source <;> rfl

@[simp] theorem Chains.afterSource_released (source : Source P T) :
    (C.afterSource left source).released = C.released := by
  cases source <;> rfl

@[simp] theorem Chains.addrs_afterSource (source : Source P T) (i : ListId) :
    addrs ((C.afterSource left source).chain i) = addrs (C.chain i) := by
  cases source with
  | value v | copyOf q => rfl
  | moveFrom q => exact addrs_map_moveOut _

end MoveOut

/-! ## A node that no list owns -/

/-- The heap `h` holds the chains `C` and, besides, what `x` says at the address `p`. -/
structure Orphan (tr : Traits A T) (h : NodeHeap P A T) (C : Chains P A T) (p : P)
    (x : A × Option (Node P T)) : Prop where
  rest : Represents tr (h.setCell p none) C
  cell : h.cells p = some x
  taken : some p ∉ h.allocations

section Create

variable {tr : Traits A T} {h : NodeHeap P A T} {C : Chains P A T} {p : P} {a : A} {v : T}
  {source : Source P T} {x : A × Option (Node P T)} {left : T → T}

omit [DecidableEq P] in
theorem constructElement_ends (h : NodeHeap P A T) :
    Ends constructElement h fun r h' =>
      (∃ bs, h' = { h with constructions := bs }) ∧
      (r = .ok () ∧ h.constructions = true :: h'.constructions ∨
        r = .error .element ∧ h.constructions.takeWhile id = []) := by
  obtain ⟨lists, cells, allocations, constructions, accessible, log⟩ := h
  rcases constructions with - | ⟨- | -, bs⟩
  · exact ⟨_, _, rfl, ⟨_, rfl⟩, .inr ⟨rfl, rfl⟩⟩
  · exact ⟨_, _, rfl, ⟨_, rfl⟩, .inr ⟨rfl, rfl⟩⟩
  · exact ⟨_, _, rfl, ⟨_, rfl⟩, .inl ⟨rfl, rfl⟩⟩

theorem Orphan.congr {h' : NodeHeap P A T} (hO : Orphan tr h C p x) (hlists : h'.lists = h.lists)
    (hcells : h'.cells = h.cells) (hallocations : h'.allocations = h.allocations)
    (haccessible : h'.accessible = h.accessible) : Orphan tr h' C p x :=
  ⟨hO.rest.congr hlists (by rw [NodeHeap.setCell, hcells]; rfl) hallocations haccessible,
    by rw [hcells]; exact hO.cell, by rw [hallocations]; exact hO.taken⟩

theorem Orphan.node?_of_mem (hO : Orphan tr h C p x) {i : ListId} {e : Entry P A T}
    (he : e ∈ C.chain i) : e.addr ≠ p ∧ ∃ next, h.node? e.addr = some ⟨next, e.value⟩ := by
  have hne : e.addr ≠ p := by
    intro hp
    refine hO.rest.notMem_of_none (h.setCell_cells_self p none) (i := i) ?_
    exact hp ▸ mem_addrs_of_mem he
  refine ⟨hne, ?_⟩
  obtain ⟨next, hnext⟩ := hO.rest.node?_of_mem he
  refine ⟨next, ?_⟩
  rw [NodeHeap.node?, NodeHeap.setCell_cells_of_ne h hne] at hnext
  exact hnext

theorem Orphan.moveOut (hO : Orphan tr h C p x) {q : P} (hq : ∃ i, q ∈ addrs (C.chain i)) :
    Orphan tr (h.mapNode q fun n => { n with value := left n.value }) (C.moveOut left q) p x := by
  have hpq : p ≠ q := by
    rintro rfl
    obtain ⟨i, hi⟩ := hq
    exact hO.rest.notMem_of_none (h.setCell_cells_self p none) hi
  refine ⟨(hO.rest.moveOut hq).congr rfl ?_ rfl rfl, ?_, hO.taken⟩
  · change Function.update (Function.update h.cells q _) p none =
      Function.update (Function.update h.cells p none) q _
    rw [Function.update_comm hpq, NodeHeap.setCell_cells_of_ne h (Ne.symm hpq)]
  · rw [NodeHeap.mapNode_cells_of_ne h hpq]
    exact hO.cell

theorem read_run (hO : Orphan tr h C p x) (hv : C.Reads source v) :
    (source.read : ListM P A T T) h = some (.ok v, h) := by
  cases source with
  | value w =>
    obtain rfl : w = v := hv
    rfl
  | copyOf q | moveFrom q =>
    obtain ⟨i, e, he, rfl, rfl⟩ := hv
    obtain ⟨-, next, hnode⟩ := hO.node?_of_mem he
    exact bind_run (node_run hnode)

theorem leave_ends (hO : Orphan tr h C p x) (hv : C.Reads source v) :
    Ends (source.leave left) h fun r h' => r = .ok () ∧ h'.allocations = h.allocations ∧
      h'.constructions = h.constructions ∧ Orphan tr h' (C.afterSource left source) p x := by
  cases source with
  | value w | copyOf q => exact .pure ⟨rfl, rfl, rfl, hO⟩
  | moveFrom q =>
    obtain ⟨i, e, he, rfl, rfl⟩ := hv
    obtain ⟨-, next, hnode⟩ := hO.node?_of_mem he
    exact .of_run (modifyNode_run hnode _)
      ⟨rfl, rfl, rfl, hO.moveOut ⟨i, mem_addrs_of_mem he⟩⟩

/-- The value of a new element, or its constructor's exception, with an unowned cell around. -/
theorem takeValue_ends (hO : Orphan tr h C p x) (hv : C.Reads source v) :
    Ends (takeValue tr source) h fun r h' =>
      h'.allocations = h.allocations ∧
      (r = .ok v ∧ h.constructions = true :: h'.constructions ∧
          Orphan tr h' (C.afterSource tr.movedFrom source) p x ∨
        r = .error .element ∧ h.constructions.takeWhile id = [] ∧
          Orphan tr h' (C.afterSource tr.halfMovedFrom source) p x) := by
  have hconstruct : Ends (onException Failure.caught constructElement
      (source.leave tr.halfMovedFrom)) h fun r h' => h'.allocations = h.allocations ∧
        (r = .ok () ∧ h.constructions = true :: h'.constructions ∧ Orphan tr h' C p x ∨
          r = .error .element ∧ h.constructions.takeWhile id = [] ∧
            Orphan tr h' (C.afterSource tr.halfMovedFrom source) p x) := by
    refine tryCatch_ends (constructElement_ends h) (fun e h₁ hP => ?_) (fun _ h₁ hP => ?_)
      fun e h₁ hP => ?_
    · obtain ⟨-, ⟨hr, -⟩ | ⟨hr, -⟩⟩ := hP
      · cases hr
      · rw [Except.error.inj hr]
        rfl
    · obtain ⟨⟨bs, rfl⟩, ⟨-, hbs⟩ | ⟨hr, -⟩⟩ := hP
      · exact ⟨rfl, .inl ⟨rfl, hbs, hO.congr rfl rfl rfl rfl⟩⟩
      · cases hr
    · obtain ⟨⟨bs, rfl⟩, ⟨hr, -⟩ | ⟨hr, hbs⟩⟩ := hP
      · cases hr
      have hO₁ : Orphan tr { h with constructions := bs } C p x := hO.congr rfl rfl rfl rfl
      refine (leave_ends hO₁ hv).mono fun r h₂ hP => ?_
      exact ⟨hP.1, hP.2.1, .inr ⟨hr, hbs, hP.2.2.2⟩⟩
  refine Ends.step (read_run hO hv) (hconstruct.bind (fun _ h₁ hP => ?_) fun e h₁ hP => ?_)
  · obtain ⟨hallocations, ⟨-, hbs, hO₁⟩ | ⟨hr, -⟩⟩ := hP
    swap
    · cases hr
    refine (leave_ends hO₁ hv).bind (fun _ h₂ hP => ?_) fun e h₂ hP => by cases hP.1
    obtain ⟨-, hallocations₂, hconstructions, hO₂⟩ := hP
    refine .pure ⟨hallocations₂.trans hallocations, .inl ⟨rfl, ?_, hO₂⟩⟩
    rw [hconstructions, hbs]
  · obtain ⟨hallocations, ⟨hr, -⟩ | ⟨hr, hbs, hO₁⟩⟩ := hP
    · cases hr
    · exact ⟨hallocations, .inr ⟨congrArg _ (Except.error.inj hr), hbs, hO₁⟩⟩

theorem construct_ends {next : Option P} (hO : Orphan tr h C p (a, none))
    (hp : h.accessible p = true) (hv : C.Reads source v) :
    Ends (construct tr p next source) h fun r h' =>
      h'.allocations = h.allocations ∧
      (r = .ok () ∧ h.constructions = true :: h'.constructions ∧
          Orphan tr h' (C.afterSource tr.movedFrom source) p (a, some ⟨next, v⟩) ∨
        r = .error .element ∧ h.constructions.takeWhile id = [] ∧
          Orphan tr h' (C.afterSource tr.halfMovedFrom source) p (a, none)) := by
  have haccessible : (accessible p : ListM P A T Bool) h = some (.ok true, h) :=
    fetch_run (fun h : NodeHeap P A T => some (h.accessible p)) (congrArg some hp)
  refine Ends.step (cell_run hO.cell) (Ends.step haccessible
    ((takeValue_ends hO hv).bind (fun w h₁ hP => ?_) fun e h₁ hP => ?_))
  · obtain ⟨hallocations, ⟨hw, hconstructions, hO₁⟩ | ⟨hw, -⟩⟩ := hP
    · obtain rfl := Except.ok.inj hw
      refine .of_run rfl ⟨hallocations, .inl ⟨rfl, hconstructions, ?_, ?_, ?_⟩⟩
      · exact hO₁.rest.congr rfl (Function.update_idem ..) rfl rfl
      · exact Function.update_self ..
      · exact hO₁.taken
    · cases hw
  · obtain ⟨hallocations, ⟨hw, -⟩ | ⟨hw, hconstructions, hO₁⟩⟩ := hP
    · cases hw
    · exact ⟨hallocations, .inr ⟨congrArg _ (Except.error.inj hw), hconstructions, hO₁⟩⟩

theorem allocate_run_nil (hal : h.allocations = []) :
    (allocate a : ListM P A T P) h = some (.error .badAlloc, h) := by
  simp [allocate, hal]

theorem allocate_run_none {rest : List (Option P)} (hal : h.allocations = none :: rest) :
    (allocate a : ListM P A T P) h =
      some (.error .badAlloc, { h with allocations := rest }) := by
  simp [allocate, hal]

theorem allocate_run_some {rest : List (Option P)} (hal : h.allocations = some p :: rest)
    (hp : h.cells p = none) : (allocate a : ListM P A T P) h = some (.ok p,
      ({ h with allocations := rest }.setCell p (some (a, none))).record (.allocate p)) := by
  simp [allocate, hal, hp]

/-- What `allocate` hands out is an unowned cell. -/
theorem allocate_ends (hR : Represents tr h C) (a : A) :
    Ends (allocate a) h fun r h' =>
      h'.constructions = h.constructions ∧
      ((∃ p, r = .ok p ∧ h.allocations = some p :: h'.allocations ∧
          Orphan tr h' C p (a, none) ∧ h'.accessible p = true) ∨
        r = .error .badAlloc ∧ h.allocations.takeWhile Option.isSome = [] ∧
          Represents tr h' C) := by
  cases hal : h.allocations with
  | nil => exact .of_run (allocate_run_nil hal) ⟨rfl, .inr ⟨rfl, rfl, hR⟩⟩
  | cons o rest =>
    have hsupplied : ∀ {h' : NodeHeap P A T}, h'.allocations = rest → h'.cells = h.cells →
        h'.accessible = h.accessible → Supplied h' := by
      intro h' hrest hcells haccessible
      obtain ⟨fresh, distinct⟩ := hR.supplied
      rw [hal] at fresh distinct
      refine ⟨fun p hp => ?_, ?_⟩
      · rw [hcells, haccessible]
        exact fresh p (List.mem_cons_of_mem _ (hrest ▸ hp))
      · rw [hrest]
        exact distinct.sublist ((List.sublist_cons_self o rest).filterMap id)
    cases o with
    | none =>
      refine .of_run (allocate_run_none hal) ⟨rfl, .inr ⟨rfl, rfl, ?_⟩⟩
      exact { hR with supplied := hsupplied rfl rfl rfl }
    | some p =>
      have hfree := hR.supplied.fresh p (hal ▸ List.mem_cons_self)
      have hdistinct := hR.supplied.distinct
      rw [hal] at hdistinct
      replace hdistinct := List.nodup_cons.mp (show (p :: rest.filterMap id).Nodup from hdistinct)
      have htaken : some p ∉ rest := fun hp =>
        hdistinct.1 (List.mem_filterMap.mpr ⟨some p, hp, rfl⟩)
      refine .of_run (allocate_run_some hal hfree.1) ⟨rfl,
        .inl ⟨p, rfl, rfl, ⟨?_, Function.update_self .., htaken⟩, hfree.2⟩⟩
      have hcells : Function.update (Function.update h.cells p (some (a, none))) p none =
          h.cells := by
        rw [Function.update_idem, ← hfree.1]
        exact Function.update_eq_self p h.cells
      have hrest : Represents tr { h with allocations := rest } C :=
        { hR with supplied := hsupplied rfl rfl rfl }
      exact hrest.congr rfl hcells rfl rfl

/-- The `try` block of `create_node`: the node is constructed, or its memory is given back. -/
theorem constructOrFree_ends {i : ListId} {next : Option P} (htr : tr.Lawful)
    (hO : Orphan tr h C p (a, none)) (hp : h.accessible p = true) (ha : C.allocator i = some a)
    (hv : C.Reads source v) :
    Ends (onException Failure.caught (construct tr p next source) do
        deallocate tr (← object i).allocator p) h fun r h' =>
      r = .ok () ∧ h'.allocations = h.allocations ∧
          h.constructions = true :: h'.constructions ∧
          Orphan tr h' (C.afterSource tr.movedFrom source) p (a, some ⟨next, v⟩) ∨
        r = .error .element ∧ h.constructions.takeWhile id = [] ∧
          Represents tr h' (C.afterSource tr.halfMovedFrom source) := by
  refine tryCatch_ends (construct_ends hO hp hv) (fun e h₁ hP => ?_) (fun _ h₁ hP => ?_)
    fun e h₁ hP => ?_
  · obtain ⟨-, ⟨hr, -⟩ | ⟨hr, -⟩⟩ := hP
    · cases hr
    · rw [Except.error.inj hr]
      rfl
  · obtain ⟨hallocations, ⟨hr, hconstructions, hO₁⟩ | ⟨hr, -⟩⟩ := hP
    · exact .inl ⟨rfl, hallocations, hconstructions, hO₁⟩
    · cases hr
  · obtain ⟨-, ⟨hr, -⟩ | ⟨hr, hconstructions, hO₁⟩⟩ := hP
    · cases hr
    have ha₁ : (C.afterSource tr.halfMovedFrom source).allocator i = some a := by
      rw [Chains.afterSource_allocator, ha]
    refine Ends.step (object_run (hO₁.rest.list ha₁))
      (.of_run (deallocate_run hO₁.cell (htr.refl a)) ⟨rfl, .inr ⟨hr, hconstructions, ?_⟩⟩)
    exact hO₁.rest.congr rfl rfl rfl rfl

/-- **`create_node` makes a node that no list owns yet, or throws and leaves nothing behind** but an
element that has been half moved. -/
theorem createNode_ends {i : ListId} (htr : tr.Lawful) (hR : Represents tr h C)
    (ha : C.allocator i = some a) (hv : C.Reads source v) (next : Option P) :
    Ends (createNode tr i next source) h fun r h' =>
      (∃ p, r = .ok p ∧ h.supplied = h'.supplied + 1 ∧ h.failure = h'.failure ∧
          Orphan tr h' (C.afterSource tr.movedFrom source) p (a, some ⟨next, v⟩)) ∨
        r = .error h.failure ∧ h.supplied = 0 ∧
          Represents tr h' (C.afterSource (tr.left h.failure) source) := by
  refine Ends.step (object_run (hR.list ha)) ((allocate_ends hR a).bind (fun p h₁ hP => ?_)
    fun e h₁ hP => ?_)
  · obtain ⟨hconstructions, ⟨q, hq, hallocations, hO, hp⟩ | ⟨hq, -⟩⟩ := hP
    swap
    · cases hq
    obtain rfl := Except.ok.inj hq
    refine (constructOrFree_ends htr hO hp ha hv).bind (fun _ h₂ hP => ?_) fun e h₂ hP => ?_
    · obtain ⟨-, hallocations₂, hconstructions₂, hO₂⟩ | ⟨hr, -⟩ := hP
      · have hallocated : h.allocations = some p :: h₂.allocations := by
          rw [hallocations, hallocations₂]
        have hconstructed : h.constructions = true :: h₂.constructions := by
          rw [← hconstructions, hconstructions₂]
        exact .pure (.inl ⟨p, rfl, NodeHeap.supplied_succ p hallocated hconstructed,
          NodeHeap.failure_succ p hallocated hconstructed, hO₂⟩)
      · cases hr
    · obtain ⟨hr, -⟩ | ⟨hr, hconstructions₂, hR₂⟩ := hP
      · cases hr
      · rw [hconstructions] at hconstructions₂
        have hfailure := NodeHeap.failure_of_construct_throws p hallocations hconstructions₂
        refine .inr ⟨?_, NodeHeap.supplied_of_construct_throws hconstructions₂, ?_⟩
        · rw [Except.error.inj hr, hfailure]
        · rw [hfailure]
          exact hR₂
  · obtain ⟨-, ⟨q, hq, -⟩ | ⟨hq, hallocations, hR₁⟩⟩ := hP
    · cases hq
    · obtain rfl := Except.error.inj hq
      have hfailure := NodeHeap.failure_of_allocate_throws hallocations
      refine .inr ⟨congrArg _ hfailure.symm, NodeHeap.supplied_of_allocate_throws hallocations, ?_⟩
      rw [hfailure]
      exact (C.afterSource_id source).symm ▸ hR₁

end Create

end Doost.Lists
