import Doost.Lists.NodeStorage
import Doost.Lists.Outcomes
import Doost.Lists.Preservation
import Doost.Pools.Downward

/-!
# Lists over a `DownwardPool`

Lists whose allocators take the nodes from one `DownwardPool`, with elements whose constructors do
not throw. The memory below the accessible region cannot be written, so that a push whose node does
not fit ends the process when the node's first member is constructed.

In a pool made with `required_storage(n)` the cursor stays a multiple of the node size below the
mapping end. `pool_holds_lists` concludes that `n` pushes fit, whatever else the lists do, and that
the first one that does not fit changes no list.
-/

namespace Doost.Lists

open Program Transition Pools

variable {T : Type}

/-! ## Lists and their pool -/

/-- All allocators are over the one pool. They compare equal, and move assignment propagates
them. The calls below answer every construction with `true`: none throws. -/
def poolTraits (movedFrom : T → T) : Traits Unit T :=
  ⟨fun _ _ => true, true, id, id, movedFrom, movedFrom⟩

theorem lawful_poolTraits (movedFrom : T → T) : (poolTraits movedFrom).Lawful :=
  ⟨fun _ => rfl, fun _ _ _ => rfl, fun _ _ _ _ _ => rfl, fun _ => rfl⟩

/-- The addresses above the guard. -/
def accessibleIn (m : Mapping) (p : UIntPtr) : Bool :=
  decide (m.guardEnd ≤ p.toNat ∧ p.toNat < m.hi)

/-- The calls that take one node from the pool. -/
def ListOp.isPush {P A : Type} : ListOp P A T → Bool
  | .emplaceFront _ _ _ => true
  | .pushFront _ _ _ => true
  | _ => false

/-- The calls that take a node for every element of another list. -/
def ListOp.copies {P A : Type} : ListOp P A T → Bool
  | .copyConstruct _ _ => true
  | .copyConstructWith _ _ _ => true
  | .copyAssign _ _ _ => true
  | _ => false

/-- A pool with lists over it, the nodes it has handed out (the latest first), and the node whose
construction faulted, after which the process takes no further step. -/
structure PoolLists (T : Type) where
  pool : DownwardPool
  heap : NodeHeap UIntPtr Unit T
  nodes : List Block
  fault : Option Block

namespace PoolLists

/-- The pool as a user of blocks. -/
def poolRun (s : PoolLists T) : PoolRun := ⟨s.pool, s.nodes, s.fault⟩

def start (m : Mapping) (pool : DownwardPool) : PoolLists T :=
  ⟨pool, NodeHeap.start (accessibleIn m), [], none⟩

/-- The node that the next push gets, and the pool afterwards. -/
def take (s : PoolLists T) (layout : NodeLayout) : Block × DownwardPool :=
  let (bytes, alignment) := allocatorRequest layout 1
  let (address, pool) := s.pool.allocate bytes alignment
  (⟨address, bytes, alignment⟩, pool)

/-- One call that takes at most one node from the pool. -/
def next (layout : NodeLayout) (movedFrom : T → T) (s : PoolLists T) (op : ListOp UIntPtr Unit T) :
    Option (PoolLists T) :=
  if s.fault.isSome || op.copies || !s.heap.acceptsOp op then none
  else if op.isPush then
    let (node, pool) := s.take layout
    match s.heap.perform (poolTraits movedFrom) ⟨op, [some node.address], [true]⟩ with
    | some (.error .fault, heap) => some ⟨pool, heap, s.nodes, some node⟩
    | some (_, heap) => some ⟨pool, heap, node :: s.nodes, none⟩
    | none => none
  else
    (s.heap.perform (poolTraits movedFrom) ⟨op, [], []⟩).map fun (_, heap) =>
      { s with heap := heap }

end PoolLists

/-! ## What the heap can hold -/

section Within

variable {P A : Type} [DecidableEq P] {tr : Traits A T}

/-- All cells are at addresses in `S`, and `allocate` will return no others. -/
def Within (S : List P) (accessible : P → Bool) (h : NodeHeap P A T) : Prop :=
  (∀ p, some p ∈ h.allocations → p ∈ S) ∧ (∀ p, (h.phase p).isSome → p ∈ S) ∧
    h.accessible = accessible

variable {S : List P} {f : P → Bool}

omit [DecidableEq P] in
theorem stable_within : Stable (Within S f : NodeHeap P A T → Prop) := by
  intro h h' _ hphase hallocations haccessible hW
  refine ⟨?_, fun p hp => hW.2.1 p ?_, haccessible.trans hW.2.2⟩
  · rw [hallocations]
    exact hW.1
  · rwa [← hphase]

theorem Within.setCell {h : NodeHeap P A T} {p : P} (hW : Within S f h) (hp : p ∈ S) (c) (e) :
    Within S f ((h.setCell p c).record e) := by
  refine ⟨hW.1, fun q hq => ?_, hW.2.2⟩
  by_cases hqp : q = p
  · exact hqp ▸ hp
  · exact hW.2.1 q (NodeHeap.phase_setCell_of_ne h hqp c ▸ hq)

omit [DecidableEq P] in
theorem Within.mem {h : NodeHeap P A T} {p : P} (hW : Within S f h) {x : A × Option (Node P T)}
    (hp : h.cells p = some x) : p ∈ S :=
  hW.2.1 p (by rw [NodeHeap.phase, hp]; rfl)

theorem keeps_allocate_within (a : A) : Keeps (Within S f) (allocate a : ListM P A T P) := by
  intro h r h' hW hrun
  rw [allocate] at hrun
  split at hrun
  · next p rest hal =>
    split at hrun
    · cases hrun
    · obtain ⟨-, rfl⟩ := Prod.mk.inj (Option.some.inj hrun)
      have hW' : Within S f { h with allocations := rest } :=
        ⟨fun q hq => hW.1 q (hal ▸ List.mem_cons_of_mem _ hq), hW.2⟩
      exact hW'.setCell (hW.1 p (hal ▸ List.mem_cons_self)) _ _
  · next rest hal =>
    obtain ⟨-, rfl⟩ := Prod.mk.inj (Option.some.inj hrun)
    exact ⟨fun q hq => hW.1 q (hal ▸ List.mem_cons_of_mem _ hq), hW.2⟩
  · obtain ⟨-, rfl⟩ := Prod.mk.inj (Option.some.inj hrun)
    exact hW

/-- A step that writes to a cell that is there. -/
theorem leads_modify_within {α : Type} {p : P} {g : NodeHeap P A T → Option α} {a : α}
    (hg : ∀ h, g h = some a → (h.cells p).isSome) (c e) :
    Leads (fun h => Within S f h ∧ g h = some a) (Within S f)
      (modify fun h => (h.setCell p c).record e : ListM P A T Unit) := by
  refine leads_modify fun h hh => ?_
  obtain ⟨x, hx⟩ := Option.isSome_iff_exists.mp (hg h hh.2)
  exact hh.1.setCell (hh.1.mem hx) c e

theorem keeps_deallocate_within (a : A) (p : P) :
    Keeps (Within S f) (deallocate tr a p : ListM P A T Unit) := by
  refine Leads.fetch fun c => ?_
  obtain ⟨b, n | n⟩ := c
  · dsimp only
    split
    · exact leads_modify_within (fun h hp => by rw [hp]; rfl) _ _
    · exact leads_undefined
  · exact leads_undefined

theorem keeps_construct_within (p : P) (next : Option P) (source : Source P T) :
    Keeps (Within S f) (construct tr p next source : ListM P A T Unit) := by
  refine Leads.fetch fun c h r h' hh hrun => ?_
  have hp := hh.1.mem hh.2
  obtain ⟨a, n | n⟩ := c
  · refine Keeps.bind (I := Within S f) (keeps_fetch _) (fun b => ?_) h r h' hh.1 hrun
    cases b with
    | true =>
      exact (keeps_takeValue stable_within source).bind fun v =>
        leads_modify fun h hW => hW.setCell hp _ _
    | false => exact keeps_throw _
  · cases hrun

/-- **No operation makes a cell at another address.** -/
theorem closed_within : Closed tr (Within S f : NodeHeap P A T → Prop) where
  stable := stable_within
  createNode next source :=
    (keeps_fetch _).bind fun o => (keeps_allocate_within _).bind fun p =>
      Keeps.bind ((keeps_construct_within p next source).onException
        ((keeps_fetch _).bind fun _ => keeps_deallocate_within _ p)) fun _ => keeps_pure p
  destroyNode := by
    refine Keeps.bind (Leads.fetch fun c => ?_) fun _ =>
      (keeps_fetch _).bind fun _ => keeps_deallocate_within _ _
    obtain ⟨b, n | n⟩ := c
    · exact leads_undefined
    · exact leads_modify_within (fun h hp => by rw [hp]; rfl) _ _

end Within

/-! ## A push that faults -/

section Fault

variable {P A : Type} [DecidableEq P] {tr : Traits A T} {h : NodeHeap P A T} {i : ListId}
  {o : ListObject P A} {p : P}

/-- The first write to the node ends the process: nothing has changed but its own cell. -/
theorem emplaceFront_fault (source : Source P T) (ho : h.lists i = some o) {rest}
    (hal : h.allocations = some p :: rest)
    (hfree : h.cells p = none) (hp : h.accessible p = false) :
    ∃ h', emplaceFront tr i source h = some (.error .fault, h') ∧ h'.lists = h.lists ∧
      ∀ q, q ≠ p → h'.cells q = h.cells q := by
  let h₁ : NodeHeap P A T :=
    ({ h with allocations := rest }.setCell p (some (o.allocator, none))).record (.allocate p)
  have hcell : h₁.cells p = some (o.allocator, none) := NodeHeap.setCell_cells_self ..
  have haccessible : (accessible p : ListM P A T Bool) h₁ = some (.ok false, h₁) :=
    fetch_run (fun h : NodeHeap P A T => some (h.accessible p)) (congrArg some hp)
  have hconstruct : construct tr p o.head source h₁ = some (.error .fault, h₁) :=
    (bind_run (cell_run hcell)).trans (bind_run haccessible)
  have hcreate : createNode tr i o.head source h = some (.error .fault, h₁) := by
    refine (bind_run (object_run ho)).trans ((bind_run (allocate_run_some hal hfree)).trans
      (bind_run_error ?_))
    rw [onException, hconstruct]
    rfl
  exact ⟨h₁, (bind_run (object_run ho)).trans (bind_run_error hcreate), rfl,
    fun q hq => NodeHeap.setCell_cells_of_ne _ hq _⟩

theorem push_fault {op : ListOp P A T} {h₀ : NodeHeap P A T} (hop : op.isPush = true)
    (haccepts : h₀.acceptsOp op = true) (hlists : h.lists = h₀.lists) {rest}
    (hal : h.allocations = some p :: rest) (hfree : h.cells p = none)
    (hp : h.accessible p = false) :
    ∃ h', op.perform tr h = some (.error .fault, h') ∧ h'.lists = h.lists ∧
      ∀ q, q ≠ p → h'.cells q = h.cells q := by
  cases op with
  | emplaceFront this source owner | pushFront this source owner =>
    simp only [NodeHeap.acceptsOp, Bool.and_eq_true] at haccepts
    obtain ⟨o, ho⟩ := Option.isSome_iff_exists.mp haccepts.1
    rw [← hlists] at ho
    obtain ⟨h', hrun, hkeep⟩ := emplaceFront_fault source ho hal hfree hp
    exact ⟨h', bind_run_error hrun, hkeep⟩
  | _ => cases hop

end Fault

/-! ## Calls -/

namespace PoolLists

variable {m : Mapping} {layout : NodeLayout} {page : ℕ} {movedFrom : T → T} {s s' : PoolLists T}
  {op : ListOp UIntPtr Unit T}

/-- What holds between the calls. -/
structure Ok (m : Mapping) (layout : NodeLayout) (movedFrom : T → T) (s : PoolLists T) : Prop where
  run : s.poolRun.Ok m
  sizes : ∀ b ∈ s.nodes, b.bytes = layout.nodeSize ∧ b.alignment = layout.nodeAlignment
  cursor : s.fault = none →
    s.pool.cursor.toNat + s.nodes.length * layout.nodeSize.toNat = m.hi
  full : ∀ b, s.fault = some b →
    m.hi < m.guardEnd + (s.nodes.length + 1) * layout.nodeSize.toNat
  chains : s.fault = none → ∃ C, Represents (poolTraits movedFrom) s.heap C
  within : s.fault = none →
    Within (s.nodes.map Block.address) (accessibleIn m) { s.heap with allocations := [] }

theorem start_ok (hm : m.Guards page layout.nodeSize.toNat) {pool : DownwardPool}
    (hs : pool.storage = m.storage) (hc : pool.cursor = downwardPoolMappingEnd pool.storage) :
    (start m pool : PoolLists T).Ok m layout movedFrom where
  run := PoolRun.start_ok hm hs hc
  sizes _ hb := by cases hb
  cursor _ := by
    change pool.cursor.toNat + 0 * _ = _
    rw [hc, hs, hm.toNat_mappingEnd, Nat.zero_mul, Nat.add_zero]
  full _ hb := by cases hb
  chains _ := ⟨_, represents_start _ _⟩
  within _ := ⟨fun _ hp => (by cases hp), fun _ hp => (by cases hp), rfl⟩

/-- A node is a request that the pool was built for. -/
theorem within_of_layout (hpage : layout.nodeAlignment.toNat ≤ page) :
    (PoolOp.allocate layout.nodeSize layout.nodeAlignment).Within page layout.nodeSize.toNat :=
  ⟨layout.size_pos, le_rfl, layout.pow, hpage⟩

theorem take_eq (s : PoolLists T) (layout : NodeLayout) : s.take layout =
    (⟨(s.pool.allocate layout.nodeSize layout.nodeAlignment).1, layout.nodeSize,
      layout.nodeAlignment⟩, (s.pool.allocate layout.nodeSize layout.nodeAlignment).2) := by
  simp [take]

/-- **The next node lies directly below the last one**, or below the mapping end. -/
theorem Ok.take (hm : m.Guards page layout.nodeSize.toNat)
    (hpage : layout.nodeAlignment.toNat ≤ page) (hs : s.Ok m layout movedFrom)
    (hf : s.fault = none) :
    (s.take layout).1.lo + (s.nodes.length + 1) * layout.nodeSize.toNat = m.hi ∧
      m.lo ≤ (s.take layout).1.lo := by
  obtain ⟨hdvd, hlo, htop⟩ := hs.run.place hm hf (within_of_layout hpage)
  have hcursor := hs.cursor hf
  have hlowest : s.pool.cursor.toNat = PoolRun.lowest m s.nodes := hs.run.cursor_eq hf
  have htop' : (s.pool.allocate layout.nodeSize layout.nodeAlignment).1.toNat +
      layout.nodeSize.toNat ≤ s.pool.cursor.toNat := hlowest ▸ htop
  have hhi : layout.nodeAlignment.toNat ∣ m.hi :=
    (AlignedWord.dvd_of_isPowerOfTwo_of_le layout.pow hm.page_pow hpage).trans
      (Nat.dvd_add hm.begin_dvd hm.bytes_dvd)
  have hdvd_cursor : layout.nodeAlignment.toNat ∣ s.pool.cursor.toNat := by
    refine (Nat.dvd_add_left (Dvd.dvd.mul_left layout.dvd_size s.nodes.length)).mp ?_
    rwa [hcursor]
  -- The cursor less the node is aligned already, so that rounding down leaves it as it is.
  have hexact := ((alignDownwardPoolCursor_spec s.pool.cursor layout.nodeSize layout.pow
    (by omega)).2.2.2 _ (Nat.dvd_sub hdvd_cursor layout.dvd_size)).mpr
      (Nat.sub_add_cancel (by omega)).le
  change _ ≤ (s.pool.allocate layout.nodeSize layout.nodeAlignment).1.toNat at hexact
  rw [take_eq]
  refine ⟨?_, hlo⟩
  change (s.pool.allocate layout.nodeSize layout.nodeAlignment).1.toNat + _ = _
  rw [Nat.add_mul, Nat.one_mul]
  omega

/-- The node that the next push gets is none of those before. -/
theorem Ok.take_ne (hm : m.Guards page layout.nodeSize.toNat)
    (hpage : layout.nodeAlignment.toNat ≤ page) (hs : s.Ok m layout movedFrom)
    (hf : s.fault = none) : ∀ b ∈ s.nodes, b.address ≠ (s.take layout).1.address := by
  intro b hb haddress
  obtain ⟨-, -, htop⟩ := hs.run.place hm hf (within_of_layout hpage)
  have hlow : PoolRun.lowest m s.nodes ≤ b.lo := hs.run.lowest_le b hb
  have hlo : b.lo = (s.pool.allocate layout.nodeSize layout.nodeAlignment).1.toNat := by
    rw [Block.lo, haddress, take_eq]
  have hpos := layout.size_pos
  change (s.pool.allocate layout.nodeSize layout.nodeAlignment).1.toNat + _ ≤
    PoolRun.lowest m s.nodes at htop
  omega

theorem Ok.take_fresh (hm : m.Guards page layout.nodeSize.toNat)
    (hpage : layout.nodeAlignment.toNat ≤ page) (hs : s.Ok m layout movedFrom)
    (hf : s.fault = none) : s.heap.cells (s.take layout).1.address = none := by
  by_contra hne
  obtain ⟨x, hx⟩ := Option.ne_none_iff_exists'.mp hne
  have hmem : (s.take layout).1.address ∈ s.nodes.map Block.address :=
    (hs.within hf).2.1 _ (by rw [NodeHeap.phase, hx]; rfl)
  obtain ⟨b, hb, haddress⟩ := List.mem_map.mp hmem
  exact hs.take_ne hm hpage hf b hb haddress

/-- How many pushes have been made. -/
def pushes (s : PoolLists T) : ℕ := s.nodes.length + s.fault.toList.length

/-- The pool sees one request, and a touch of the block. -/
theorem poolRun_next (hf : s.fault = none) :
    PoolRun.next m s.poolRun (.allocate layout.nodeSize layout.nodeAlignment) =
      if m.InGuard (s.take layout).1.lo then
        some ⟨(s.take layout).2, s.nodes, some (s.take layout).1⟩
      else some ⟨(s.take layout).2, (s.take layout).1 :: s.nodes, none⟩ := by
  simp only [PoolRun.next, poolRun, hf, take_eq]

theorem not_copies_of_isPush (hop : op.isPush = true) : op.copies = false := by
  cases op <;> first | rfl | cases hop

/-- The guard of `next`. -/
theorem next_of_accepts (hf : s.fault = none) (hcopies : op.copies = false)
    (haccepts : s.heap.acceptsOp op = true) :
    (s.fault.isSome || op.copies || !s.heap.acceptsOp op) = false := by
  rw [hf, hcopies, haccepts]
  rfl

/-- A push whose node lies above the guard. -/
theorem Ok.push (hm : m.Guards page layout.nodeSize.toNat)
    (hpage : layout.nodeAlignment.toNat ≤ page) (hs : s.Ok m layout movedFrom)
    (hf : s.fault = none) (hop : op.isPush = true) (haccepts : s.heap.acceptsOp op = true)
    (habove : m.guardEnd ≤ (s.take layout).1.lo) :
    ∃ s', s.next layout movedFrom op = some s' ∧ s'.Ok m layout movedFrom ∧ s'.fault = none ∧
      s'.nodes = (s.take layout).1 :: s.nodes ∧
      s'.heap.sequences = s.heap.sequences.apply movedFrom (s.heap.meaning op) := by
  obtain ⟨hlo, -⟩ := hs.take hm hpage hf
  obtain ⟨C, hR⟩ := hs.chains hf
  have hW := hs.within hf
  have hpos := layout.size_pos
  rw [Nat.add_mul, Nat.one_mul] at hlo
  have haccessible : s.heap.accessible (s.take layout).1.address = true := by
    have hacc : s.heap.accessible = accessibleIn m := hW.2.2
    rw [hacc, accessibleIn, decide_eq_true_eq]
    change _ ∧ (s.take layout).1.lo < m.hi
    exact ⟨habove, by omega⟩
  have hlegal : s.heap.legal ⟨op, [some (s.take layout).1.address], [true]⟩ = true := by
    simp [NodeHeap.legal, NodeHeap.mayReturn, haccepts, haccessible, hs.take_fresh hm hpage hf]
  obtain ⟨r, heap, hrun, C', hP⟩ := hR.perform (lawful_poolTraits movedFrom) hlegal
  have hneeds : s.heap.needs op = 1 := by
    cases op <;> first | rfl | cases hop
  have hok : ∀ x, r = .error x → x.thrown = false :=
    hP.supplied (by rw [hneeds]; rfl)
  have hpop : ∀ i, op ≠ .popFront i := by
    rintro i rfl
    cases hop
  obtain rfl : r = .ok () := hP.returns hok hpop
  have hrun' : s.heap.perform (poolTraits movedFrom)
      ⟨op, [some (s.take layout).1.address], [true]⟩ = some (.ok (), heap) := hrun
  refine ⟨⟨(s.take layout).2, heap, (s.take layout).1 :: s.nodes, none⟩, ?_,
    ⟨?_, ?_, fun _ => ?_, fun _ hb => (by cases hb), fun _ => ⟨C', hP.represents⟩, fun _ => ?_⟩,
    rfl,
    rfl, ?_⟩
  · rw [next, next_of_accepts hf (not_copies_of_isPush hop) haccepts,
      if_neg Bool.false_ne_true, if_pos hop]
    simp only [hrun']
  · refine PoolRun.next_ok hm hs.run (within_of_layout hpage) ?_
    rw [poolRun_next hf, if_neg fun hguard => absurd hguard.2 (not_lt.mpr habove)]
    rfl
  · exact List.forall_mem_cons.mpr ⟨by rw [take_eq]; exact ⟨rfl, rfl⟩, hs.sizes⟩
  · have hcursor : (s.take layout).2.cursor.toNat = (s.take layout).1.lo := by
      rw [take_eq]
      rfl
    change (s.take layout).2.cursor.toNat + (s.nodes.length + 1) * _ = _
    rw [hcursor, Nat.add_mul, Nat.one_mul]
    exact hlo
  · have hstart : Within ((s.take layout).1.address :: s.nodes.map Block.address) (accessibleIn m)
        (s.heap.answering ⟨op, [some (s.take layout).1.address], [true]⟩) := by
      refine ⟨fun p hp => ?_, fun p hp => List.mem_cons_of_mem _ (hW.2.1 p hp), hW.2.2⟩
      obtain rfl := Option.some.inj (List.mem_singleton.mp hp)
      exact List.mem_cons_self
    have hend := closed_within.perform op _ _ _ hstart hrun
    exact ⟨fun _ hp => (by cases hp), hend.2.1, hend.2.2⟩
  · rw [hP.represents.sequences, hP.contents hok, hR.sequences]
    rfl

/-- A push whose node starts below the accessible region. -/
theorem Ok.push_fault (hm : m.Guards page layout.nodeSize.toNat)
    (hpage : layout.nodeAlignment.toNat ≤ page) (hs : s.Ok m layout movedFrom)
    (hf : s.fault = none) (hop : op.isPush = true) (haccepts : s.heap.acceptsOp op = true)
    (hbelow : (s.take layout).1.lo < m.guardEnd) :
    ∃ s', s.next layout movedFrom op = some s' ∧ s'.Ok m layout movedFrom ∧
      s'.fault = some (s.take layout).1 ∧ s'.nodes = s.nodes ∧
      s'.heap.lists = s.heap.lists ∧
      ∀ b ∈ s.nodes, s'.heap.cells b.address = s.heap.cells b.address := by
  obtain ⟨hlo, hbegin⟩ := hs.take hm hpage hf
  obtain ⟨C, hR⟩ := hs.chains hf
  have hfresh := hs.take_fresh hm hpage hf
  have haccessible : s.heap.accessible (s.take layout).1.address = false := by
    have hacc : s.heap.accessible = accessibleIn m := (hs.within hf).2.2
    rw [hacc, accessibleIn, decide_eq_false_iff_not]
    exact fun h => absurd h.1 (not_le.mpr hbelow)
  obtain ⟨heap, hrun, hlists, hcells⟩ :=
    Lists.push_fault (h := s.heap.answering ⟨op, [some (s.take layout).1.address], [true]⟩) hop
      haccepts rfl rfl hfresh haccessible
  have hrun' : s.heap.perform (poolTraits movedFrom)
      ⟨op, [some (s.take layout).1.address], [true]⟩ = some (.error .fault, heap) := hrun
  refine ⟨⟨(s.take layout).2, heap, s.nodes, some (s.take layout).1⟩, ?_,
    ⟨?_, hs.sizes, fun h => (by cases h), fun _ _ => ?_, fun h => (by cases h),
      fun h => (by cases h)⟩,
    rfl, rfl, hlists, fun b hb => hcells _ fun haddress => ?_⟩
  · rw [next, next_of_accepts hf (not_copies_of_isPush hop) haccepts,
      if_neg Bool.false_ne_true, if_pos hop]
    simp only [hrun']
  · refine PoolRun.next_ok hm hs.run (within_of_layout hpage) ?_
    rw [poolRun_next hf, if_pos ⟨hbegin, hbelow⟩]
    rfl
  · change m.hi < m.guardEnd + (s.nodes.length + 1) * _
    omega
  · exact hs.take_ne hm hpage hf b hb haddress

/-- Any other call. -/
theorem Ok.other (hs : s.Ok m layout movedFrom) (hf : s.fault = none) (hop : op.isPush = false)
    (hcopies : op.copies = false) (haccepts : s.heap.acceptsOp op = true) :
    ∃ s', s.next layout movedFrom op = some s' ∧ s'.Ok m layout movedFrom ∧ s'.fault = none ∧
      s'.nodes = s.nodes := by
  obtain ⟨C, hR⟩ := hs.chains hf
  have hW := hs.within hf
  have hlegal : s.heap.legal ⟨op, [], []⟩ = true := by
    simp [NodeHeap.legal, NodeHeap.mayReturn, haccepts]
  obtain ⟨r, heap, hrun, C', hP⟩ := hR.perform (lawful_poolTraits movedFrom) hlegal
  have hrun' : s.heap.perform (poolTraits movedFrom) ⟨op, [], []⟩ = some (r, heap) := hrun
  refine ⟨{ s with heap := heap }, ?_, ⟨hs.run, hs.sizes, hs.cursor, hs.full,
    fun _ => ⟨C', hP.represents⟩, fun _ => ?_⟩, hf, rfl⟩
  · rw [next, next_of_accepts hf hcopies haccepts, if_neg Bool.false_ne_true,
      if_neg (Bool.eq_false_iff.mp hop), hrun', Option.map_some]
  · have hstart : Within (s.nodes.map Block.address) (accessibleIn m)
        (s.heap.answering ⟨op, [], []⟩) := ⟨fun _ hp => (by cases hp), hW.2.1, hW.2.2⟩
    have hend := closed_within.perform op _ _ _ hstart hrun
    exact ⟨fun _ hp => (by cases hp), hend.2.1, hend.2.2⟩

theorem next_eq_some (hnext : s.next layout movedFrom op = some s') :
    s.fault = none ∧ op.copies = false ∧ s.heap.acceptsOp op = true := by
  rw [next] at hnext
  split at hnext
  · cases hnext
  · next hguard =>
    simp only [Bool.or_eq_true, not_or, Bool.not_eq_true, Option.isSome_eq_false_iff,
      Option.isNone_iff_eq_none, Bool.not_eq_false'] at hguard
    exact ⟨hguard.1.1, hguard.1.2, hguard.2⟩

/-- **One call keeps the invariant**, and only a push takes a node. -/
theorem Ok.next (hm : m.Guards page layout.nodeSize.toNat)
    (hpage : layout.nodeAlignment.toNat ≤ page) (hs : s.Ok m layout movedFrom)
    (hnext : s.next layout movedFrom op = some s') :
    s'.Ok m layout movedFrom ∧ s'.pushes = s.pushes + if op.isPush then 1 else 0 := by
  obtain ⟨hf, hcopies, haccepts⟩ := next_eq_some hnext
  cases hop : op.isPush with
  | false =>
    obtain ⟨t, ht, hok, hf', hnodes⟩ := hs.other hf hop hcopies haccepts
    obtain rfl := Option.some.inj (ht.symm.trans hnext)
    refine ⟨hok, ?_⟩
    rw [pushes, pushes, hnodes, hf, hf']
    rfl
  | true =>
    rcases lt_or_ge (s.take layout).1.lo m.guardEnd with hlt | hge
    · obtain ⟨t, ht, hok, hf', hnodes, -⟩ := hs.push_fault hm hpage hf hop haccepts hlt
      obtain rfl := Option.some.inj (ht.symm.trans hnext)
      refine ⟨hok, ?_⟩
      rw [pushes, pushes, hnodes, hf, hf']
      rfl
    · obtain ⟨t, ht, hok, hf', hnodes, -⟩ := hs.push hm hpage hf hop haccepts hge
      obtain rfl := Option.some.inj (ht.symm.trans hnext)
      refine ⟨hok, ?_⟩
      rw [pushes, pushes, hnodes, hf, hf']
      rfl

theorem Ok.run_ok (hm : m.Guards page layout.nodeSize.toNat)
    (hpage : layout.nodeAlignment.toNat ≤ page) {ops : List (ListOp UIntPtr Unit T)}
    (hs : s.Ok m layout movedFrom)
    (hrun : Transition.run (PoolLists.next layout movedFrom) s ops = some s') :
    s'.Ok m layout movedFrom ∧ s'.pushes = s.pushes + ops.countP ListOp.isPush := by
  induction ops generalizing s with
  | nil =>
    obtain rfl := Option.some.inj hrun
    exact ⟨hs, rfl⟩
  | cons op ops ih =>
    obtain ⟨t, ht, hrest⟩ := run_cons_eq_some.mp hrun
    obtain ⟨hok, hpushes⟩ := hs.next hm hpage ht
    obtain ⟨hok', hpushes'⟩ := ih hok hrest
    refine ⟨hok', ?_⟩
    rw [hpushes', hpushes, List.countP_cons]
    omega

/-! ## The capacity -/

/-- The nodes handed out are disjoint and aligned, lie in accessible memory and take no more of the
pool than their own bytes; the lists have no other nodes. -/
structure Held (m : Mapping) (layout : NodeLayout) (s : PoolLists T) : Prop where
  sizes : ∀ b ∈ s.nodes, b.bytes = layout.nodeSize ∧ b.alignment = layout.nodeAlignment
  aligned : ∀ b ∈ s.nodes, b.Aligned
  inside : ∀ b ∈ s.nodes, m.Holds b
  apart : s.nodes.Pairwise Block.Below
  usedBytes : s.pool.usedBytes.toNat = s.nodes.length * layout.nodeSize.toNat
  cells : ∀ p, (s.heap.cells p).isSome → p ∈ s.nodes.map Block.address

/-- A push from `s` to `s'`: a node that fits joins its list, and one that does not starts in the
guard, where its construction faults before the lists and the other nodes have changed. -/
structure Pushes (m : Mapping) (layout : NodeLayout) (movedFrom : T → T) (s : PoolLists T)
    (op : ListOp UIntPtr Unit T) (s' : PoolLists T) : Prop where
  fits : m.Holds (s.take layout).1 → s'.fault = none ∧ s'.nodes = (s.take layout).1 :: s.nodes ∧
    s'.heap.sequences = s.heap.sequences.apply movedFrom (s.heap.meaning op)
  overflows : ¬ m.Holds (s.take layout).1 → m.InGuard (s.take layout).1.lo ∧
    s'.fault = some (s.take layout).1 ∧ s'.nodes = s.nodes ∧ s'.heap.lists = s.heap.lists ∧
    ∀ b ∈ s.nodes, s'.heap.cells b.address = s.heap.cells b.address

theorem Ok.held (hm : m.Guards page layout.nodeSize.toNat) (hs : s.Ok m layout movedFrom)
    (hf : s.fault = none) : s.Held m layout where
  sizes := hs.sizes
  aligned := hs.run.aligned
  inside := hs.run.inside
  apart := hs.run.stacked
  usedBytes := by
    have hused : s.pool.usedBytes.toNat = m.hi - PoolRun.lowest m s.nodes :=
      hs.run.usedBytes hm hf
    have hcursor := hs.cursor hf
    have hlowest : s.pool.cursor.toNat = PoolRun.lowest m s.nodes := hs.run.cursor_eq hf
    omega
  cells p hp := by
    obtain ⟨x, hx⟩ := Option.isSome_iff_exists.mp hp
    exact (hs.within hf).2.1 p (by rw [NodeHeap.phase, hx]; rfl)

theorem Ok.pushes_of_accepts (hm : m.Guards page layout.nodeSize.toNat)
    (hpage : layout.nodeAlignment.toNat ≤ page) (hs : s.Ok m layout movedFrom)
    (hf : s.fault = none) (hop : op.isPush = true) (haccepts : s.heap.acceptsOp op = true) :
    ∃ s', s.next layout movedFrom op = some s' ∧ s.Pushes m layout movedFrom op s' := by
  obtain ⟨hlo, hbegin⟩ := hs.take hm hpage hf
  have hhi : (s.take layout).1.hi = (s.take layout).1.lo + layout.nodeSize.toNat := by
    rw [take_eq]
    rfl
  have hholds : m.Holds (s.take layout).1 ↔ m.guardEnd ≤ (s.take layout).1.lo := by
    refine ⟨fun h => h.1, fun h => ⟨h, ?_⟩⟩
    rw [hhi, ← hlo, Nat.add_mul, Nat.one_mul]
    omega
  rcases lt_or_ge (s.take layout).1.lo m.guardEnd with hlt | hge
  · obtain ⟨t, ht, -, hf', hnodes, hkeep⟩ := hs.push_fault hm hpage hf hop haccepts hlt
    exact ⟨t, ht, fun h => absurd (hholds.mp h) (not_le.mpr hlt),
      fun _ => ⟨⟨hbegin, hlt⟩, hf', hnodes, hkeep⟩⟩
  · obtain ⟨t, ht, -, hf', hnodes, hsequences⟩ := hs.push hm hpage hf hop haccepts hge
    exact ⟨t, ht, fun _ => ⟨hf', hnodes, hsequences⟩, fun h => absurd (hholds.mpr hge) h⟩

end PoolLists

/-- **A `DownwardPool` sized by `required_storage(n)` holds `n` nodes, and the first overflow is
caught before a list changes.** In every run of calls that take at most one node each, no push
faults while there are at most `n`, whatever pops and clears are in between; all nodes handed out
are held; and every further call is defined, where a push whose node does not fit starts in the
guard and faults. -/
theorem pool_holds_lists {os : Os} (hos : os.Lawful) {layout : NodeLayout}
    (hpage : layout.nodeAlignment.toNat ≤ os.page) {n bytes : SizeT}
    (hreq : requiredStorage layout n = .ok bytes)
    (hround : bytes.toNat + (os.page - 1) < 2 ^ 64)
    (hguard : layout.nodeSize.toNat + (os.page - 1) < 2 ^ 64) {process process' : Process}
    {pool : DownwardPool}
    (hmake : DownwardPool.make os bytes layout.nodeSize process = (.ok pool, process'))
    (movedFrom : T → T) :
    ∃ m, process'.mappings = m :: process.mappings ∧ m.storage = pool.storage ∧
      ∀ ops : List (ListOp UIntPtr Unit T), ∀ s,
      run (PoolLists.next layout movedFrom) (PoolLists.start m pool) ops = some s →
      (ops.countP ListOp.isPush ≤ n.toNat → s.fault = none) ∧
      (s.fault = none → s.nodes.length = ops.countP ListOp.isPush ∧ s.Held m layout ∧
        ∀ op, op.copies = false → s.heap.acceptsOp op = true →
          ∃ s', s.next layout movedFrom op = some s' ∧
            (op.isPush = true → s.Pushes m layout movedFrom op s')) := by
  obtain ⟨hstorage, hcursor⟩ := DownwardPool.make_ok hmake
  obtain ⟨m, hm, hms, -, husable, hmem⟩ := makeDownwardPoolStorage_guards hos hguard hstorage
  refine ⟨m, hmem, hms, fun ops s hrun => ?_⟩
  obtain ⟨hs, hpushes⟩ := (PoolLists.start_ok hm hms.symm hcursor).run_ok hm hpage hrun
  have hpushes' : s.pushes = ops.countP ListOp.isPush := by
    rw [hpushes]
    exact Nat.zero_add _
  refine ⟨fun hn => ?_, fun hf => ⟨?_, hs.held hm hf, fun op hcopies haccepts => ?_⟩⟩
  · -- A fault needs more nodes than the usable bytes hold.
    have hroom : n.toNat * layout.nodeSize.toNat ≤ m.hi - m.guardEnd := by
      have hle := AlignedWord.le_ceilTo hos.page_pos bytes.toNat
      have hceil : (roundUp bytes (BitVec.ofInt 64 os.pageSize)).toNat =
          AlignedWord.ceilTo bytes.toNat os.page := toNat_roundUp hos.pageSize_pow hround
      rw [← requiredStorage_ok hreq]
      omega
    cases hfault : s.fault with
    | none => rfl
    | some b =>
      have hfull := hs.full b hfault
      have hlen : s.nodes.length + 1 ≤ n.toNat := by
        rw [PoolLists.pushes, hfault] at hpushes'
        change s.nodes.length + 1 = _ at hpushes'
        omega
      have hmul := Nat.mul_le_mul_right layout.nodeSize.toNat hlen
      omega
  · rw [PoolLists.pushes, hf] at hpushes'
    exact hpushes'
  · cases hop : op.isPush with
    | true =>
      obtain ⟨s', hnext, hpush⟩ := hs.pushes_of_accepts hm hpage hf hop haccepts
      exact ⟨s', hnext, fun _ => hpush⟩
    | false =>
      obtain ⟨s', hnext, -⟩ := hs.other hf hop hcopies haccepts
      exact ⟨s', hnext, fun h => by cases h⟩

/-- Two lists over one pool, with a push to each and a pop in between. -/
def twoPushes : List (ListOp UIntPtr Unit ℕ) :=
  [.construct 0 (), .construct 1 (), .pushFront 0 (.value 7) 0, .popFront 0,
    .emplaceFront 1 (.value 8) 1]

/-- `twoPushes` on a pool for two nodes. -/
theorem pool_holds_lists_twoPushes :
    ∃ s, run (PoolLists.next NodeLayout.int id)
        (PoolLists.start ⟨0x10000, 0x2000, 0x1000⟩ ⟨⟨0x10000, 0x2000⟩, 0x12000⟩) twoPushes =
          some s ∧
      s.fault = none ∧ s.Held ⟨0x10000, 0x2000, 0x1000⟩ NodeLayout.int ∧
      s.heap.elements 0 = some [] ∧ s.heap.elements 1 = some [(0x11FE0, 8)] := by
  obtain ⟨m, hmem, -, hruns⟩ := pool_holds_lists Os.fixed_lawful (by decide)
    (show requiredStorage NodeLayout.int 2 = .ok 32 from rfl) (by decide) (by decide)
    (show DownwardPool.make Os.fixed 32 16 ⟨[], none, []⟩ = _ from rfl) (id : ℕ → ℕ)
  obtain rfl := (List.cons.inj hmem).1
  have hfacts : (run (PoolLists.next NodeLayout.int id)
      (PoolLists.start ⟨0x10000, 0x2000, 0x1000⟩ ⟨⟨0x10000, 0x2000⟩, 0x12000⟩) twoPushes).map
        (fun s => (s.heap.elements 0, s.heap.elements 1)) =
          some (some [], some [(0x11FE0, 8)]) := by
    decide +kernel
  obtain ⟨s, hrun, hh⟩ := Option.map_eq_some_iff.mp hfacts
  obtain ⟨hle, hheld⟩ := hruns twoPushes s hrun
  have hfault := hle (by decide)
  exact ⟨s, hrun, hfault, (hheld hfault).2.1, (Prod.mk.inj hh).1, (Prod.mk.inj hh).2⟩

end Doost.Lists
