import Doost.Foundations.Program
import Doost.Lists.NodeSpecs
import Doost.Lists.Operations

/-!
# What every operation preserves

An invariant that a change of the list objects keeps is preserved by every operation, as soon as
`create_node`, `destroy_node` and the loop of `copy_from` and `move_values_from` preserve it
(`Framed.perform`). The calls of the other helpers and of the operations are followed here once for
all such invariants. An invariant that looks only at the log, at which cells hold memory or a node,
at the answers still to come and at what is accessible needs no more than `create_node` and
`destroy_node` (`Closed.perform`).
-/

namespace Doost.Lists

open Program

variable {P A T : Type} [DecidableEq P]

/-- What is at `p`: no memory, memory without a node, or a node. -/
def NodeHeap.phase (h : NodeHeap P A T) (p : P) : Option Bool :=
  (h.cells p).map fun c => c.2.isSome

section Phase

variable {p : P}

theorem NodeHeap.phase_setCell_self (h : NodeHeap P A T) (p : P) (c) :
    (h.setCell p c).phase p = c.map fun c => c.2.isSome := by
  rw [NodeHeap.phase, NodeHeap.setCell_cells_self]

theorem NodeHeap.phase_setCell_of_ne (h : NodeHeap P A T) {q : P} (hq : q ≠ p) (c) :
    (h.setCell p c).phase q = h.phase q := by
  rw [NodeHeap.phase, NodeHeap.setCell_cells_of_ne h hq, NodeHeap.phase]

/-- A change of links or values is no event. -/
theorem NodeHeap.phase_mapNode (h : NodeHeap P A T) (p q : P) (f) :
    (h.mapNode p f).phase q = h.phase q := by
  rw [NodeHeap.phase, NodeHeap.phase]
  by_cases hq : q = p
  · rw [hq, NodeHeap.mapNode_cells_self]
    cases h.cells p <;> simp
  · rw [NodeHeap.mapNode_cells_of_ne h hq]

end Phase

/-- What holds of the log, the phases, the answers of `allocate` and the accessible memory holds
after a step that changes none of them. -/
def Stable (I : NodeHeap P A T → Prop) : Prop :=
  ∀ h h', h'.log = h.log → (∀ p, h'.phase p = h.phase p) → h'.allocations = h.allocations →
    h'.accessible = h.accessible → I h → I h'

/-- The creation and the destruction of nodes preserve `I`. -/
structure Closed (tr : Traits A T) (I : NodeHeap P A T → Prop) : Prop where
  stable : Stable I
  createNode : ∀ {i} next source, Keeps I (createNode tr i next source)
  destroyNode : ∀ {i p}, Keeps I (destroyNode tr i p)

/-! ## Moves out of elements -/

/-- The element is moved from. -/
def Source.Moves : Source P T → Prop
  | .moveFrom _ => True
  | _ => False

/-- The call may move elements from one node to another. A move assignment does so if the nodes
themselves may have to stay. -/
def ListOp.MovesElements (tr : Traits A T) : ListOp P A T → Prop
  | .moveAssign _ _ _ => tr.propagateOnMoveAssignment = false ∧ ∃ a b, tr.equal a b = false
  | .emplaceFront _ source _ => source.Moves
  | .pushFront _ source _ => source.Moves
  | _ => False

/-- The parts of the operations that touch nodes preserve `I`. Unless `moving`, no element may be
moved from. -/
structure Framed (tr : Traits A T) (moving : Prop) (I : NodeHeap P A T → Prop) : Prop where
  setList : ∀ {i} (f : NodeHeap P A T → Option (ListObject P A)),
    Keeps I (modify fun h => h.setList i (f h) : ListM P A T Unit)
  createNode : ∀ {i} next source, (source.Moves → moving) →
    Keeps I (createNode tr i next source)
  destroyNode : ∀ {i p}, Keeps I (destroyNode tr i p)
  appendLoop : ∀ {i} how fuel q, (how = .move → moving) →
    Keeps I (appendLoop tr i how fuel .head q)

/-! ## Steps without events -/

section Stable

variable {I : NodeHeap P A T → Prop} {tr : Traits A T} {i : ListId} {p : P}

omit [DecidableEq P] in
theorem keeps_setList (hI : Stable I) (f : NodeHeap P A T → Option (ListObject P A)) :
    Keeps I (modify fun h => h.setList i (f h) : ListM P A T Unit) :=
  leads_modify fun h hh => hI h _ rfl (fun _ => rfl) rfl rfl hh

omit [DecidableEq P] in
theorem keeps_modifyObject (hI : Stable I) (f) : Keeps I (modifyObject i f : ListM P A T Unit) :=
  (keeps_fetch _).bind fun o => keeps_setList hI fun _ => some (f o)

theorem keeps_modifyNode (hI : Stable I) (f) : Keeps I (modifyNode p f : ListM P A T Unit) :=
  (keeps_fetch _).bind fun _ =>
    leads_modify fun h hh => hI h _ rfl (h.phase_mapNode p · f) rfl rfl hh

omit [DecidableEq P] in
theorem keeps_constructElement (hI : Stable I) : Keeps I (constructElement : ListM P A T Unit) := by
  intro s r s' hs hrun
  rw [constructElement] at hrun
  split at hrun <;> obtain ⟨-, rfl⟩ := Prod.mk.inj (Option.some.inj hrun)
  · exact hI s _ rfl (fun _ => rfl) rfl rfl hs
  · exact hI s _ rfl (fun _ => rfl) rfl rfl hs
  · exact hs

theorem keeps_leave (hI : Stable I) (left : T → T) (source : Source P T) :
    Keeps I (source.leave left : ListM P A T Unit) := by
  cases source with
  | value v | copyOf q => exact keeps_pure ()
  | moveFrom q => exact keeps_modifyNode hI _

theorem keeps_takeValue (hI : Stable I) (source : Source P T) :
    Keeps I (takeValue tr source : ListM P A T T) := by
  have hconstruct : Keeps I (onException Failure.caught constructElement
      (source.leave tr.halfMovedFrom) : ListM P A T Unit) :=
    (keeps_constructElement hI).onException (keeps_leave hI _ source)
  refine Keeps.bind ?_ fun v => hconstruct.bind fun _ => (keeps_leave hI _ source).bind fun _ =>
    keeps_pure v
  cases source with
  | value v => exact keeps_pure v
  | copyOf q | moveFrom q => exact (keeps_fetch _).bind fun n => keeps_pure n.value

theorem keeps_assignTail (hI : Stable I) (tail : Tail P) :
    Keeps I (assignTail i tail p : ListM P A T Unit) := by
  cases tail with
  | head => exact keeps_modifyObject hI _
  | next q => exact keeps_modifyNode hI _

end Stable

/-! ## Operations -/

section Operations

variable {tr : Traits A T} {moving : Prop} {I : NodeHeap P A T → Prop} {i j : ListId}

theorem Framed.modifyObject (hI : Framed tr moving I) (f) :
    Keeps I (modifyObject i f : ListM P A T Unit) :=
  (keeps_fetch _).bind fun o => hI.setList fun _ => some (f o)

theorem Framed.clear (hI : Framed tr moving I) : Keeps I (clear tr i : ListM P A T Unit) := by
  have hloop : ∀ fuel, Keeps I (clearLoop tr i fuel : ListM P A T Unit) := by
    intro fuel
    induction fuel with
    | zero => exact leads_undefined
    | succ fuel ih =>
      refine (keeps_fetch _).bind fun o => ?_
      cases o.head with
      | none => exact keeps_pure ()
      | some p =>
        exact (keeps_fetch _).bind fun _ => (hI.modifyObject _).bind fun _ =>
          hI.destroyNode.bind fun _ => ih
  exact (keeps_fetch _).bind fun _ => (hloop _).bind fun _ => hI.modifyObject _

theorem Framed.appendFrom (hI : Framed tr moving I) (how : Transfer) (hhow : how = .move → moving) :
    Keeps I (appendFrom tr i j how : ListM P A T Unit) :=
  (keeps_fetch _).bind fun _ => (hI.appendLoop how _ _ hhow).onException hI.clear

theorem Framed.destroyList (hI : Framed tr moving I) :
    Keeps I (destroyList tr i : ListM P A T Unit) :=
  hI.clear.bind fun _ => hI.setList _

theorem Framed.swapNodes (hI : Framed tr moving I) : Keeps I (swapNodes i j : ListM P A T Unit) :=
  (keeps_fetch _).bind fun _ => (keeps_fetch _).bind fun _ =>
    (hI.modifyObject _).bind fun _ => hI.modifyObject _

theorem Framed.stealNodesFrom (hI : Framed tr moving I) :
    Keeps I (stealNodesFrom i j : ListM P A T Unit) :=
  (keeps_fetch _).bind fun _ => (hI.modifyObject _).bind fun _ =>
    (hI.modifyObject _).bind fun _ => (hI.modifyObject _).bind fun _ => hI.modifyObject _

theorem Framed.copyConstructWith (hI : Framed tr moving I) (a : A) :
    Keeps I (copyConstructWith tr i j a : ListM P A T Unit) :=
  (hI.setList _).bind fun _ =>
    (hI.appendFrom .copy fun h => by cases h).onException (hI.setList _)

theorem Framed.copyAssign (hI : Framed tr moving I) (t : ListId) :
    Keeps I (copyAssign tr i j t : ListM P A T Unit) := by
  rw [Lists.copyAssign]
  split
  · exact keeps_pure ()
  · exact (keeps_fetch _).bind fun _ => (hI.copyConstructWith _).bind fun _ =>
      hI.swapNodes.bind fun _ => hI.destroyList

theorem Framed.moveElements (hI : Framed tr moving I) (hmoving : moving) (t : ListId) :
    Keeps I (moveElements tr i j t : ListM P A T Unit) :=
  (keeps_fetch _).bind fun _ => (hI.setList _).bind fun _ =>
    Keeps.bind ((hI.appendFrom .move fun _ => hmoving).onException hI.destroyList) fun _ =>
      hI.clear.bind fun _ => hI.swapNodes.bind fun _ => hI.clear.bind fun _ =>
        hI.destroyList

theorem Framed.moveAssign (hI : Framed tr moving I) (t : ListId)
    (hmoving : (ListOp.moveAssign i j t : ListOp P A T).MovesElements tr → moving) :
    Keeps I (moveAssign tr i j t : ListM P A T Unit) := by
  rw [Lists.moveAssign]
  split
  · exact keeps_pure ()
  split
  · exact hI.clear.bind fun _ => (keeps_fetch _).bind fun _ =>
      (hI.modifyObject _).bind fun _ => hI.stealNodesFrom
  · next hpropagate =>
    refine (keeps_fetch _).bind fun a => (keeps_fetch _).bind fun b => ?_
    split
    · exact hI.clear.bind fun _ => hI.stealNodesFrom
    · next hequal =>
      exact hI.moveElements (hmoving ⟨Bool.not_eq_true _ ▸ hpropagate, a.allocator, b.allocator,
        Bool.not_eq_true _ ▸ hequal⟩) t

theorem Framed.emplaceFront (hI : Framed tr moving I) (source : Source P T)
    (hmoving : source.Moves → moving) : Keeps I (emplaceFront tr i source : ListM P A T P) := by
  refine (keeps_fetch _).bind fun _ => (hI.createNode _ _ hmoving).bind fun _ =>
    (hI.modifyObject _).bind fun _ =>
      (hI.modifyObject _).bind fun _ => (keeps_fetch _).bind fun o => ?_
  cases o.head with
  | none => exact leads_undefined
  | some p => exact keeps_pure p

theorem Framed.popFront (hI : Framed tr moving I) : Keeps I (popFront tr i : ListM P A T Unit) := by
  refine (keeps_fetch _).bind fun o => ?_
  cases o.head with
  | none => exact keeps_throw _
  | some p =>
    exact (keeps_fetch _).bind fun _ => (hI.modifyObject _).bind fun _ =>
      (hI.modifyObject _).bind fun _ => hI.destroyNode

/-- **Every operation preserves a framed invariant**, also when it throws. -/
theorem Framed.perform (hI : Framed tr moving I) (op : ListOp P A T)
    (hmoving : op.MovesElements tr → moving) : Keeps I (op.perform tr) := by
  cases op with
  | construct this a => exact hI.setList _
  | copyConstruct this other =>
    exact (keeps_fetch _).bind fun _ => hI.copyConstructWith _
  | copyConstructWith this other a => exact hI.copyConstructWith a
  | moveConstruct this other =>
    exact (keeps_fetch _).bind fun o => (hI.modifyObject _).bind fun _ => hI.setList _
  | copyAssign this other copy => exact hI.copyAssign copy
  | moveAssign this other moved => exact hI.moveAssign moved hmoving
  | emplaceFront this source owner | pushFront this source owner =>
    exact (hI.emplaceFront source hmoving).bind fun _ => keeps_pure ()
  | popFront this => exact hI.popFront
  | clear this => exact hI.clear
  | releaseNodes this => exact hI.modifyObject _
  | destroy this => exact hI.destroyList

/-- The loop links nodes and counts them, which is no event. -/
theorem Closed.appendLoop (hI : Closed tr I) (how : Transfer) (fuel : ℕ) (tail : Tail P)
    (q : Option P) : Keeps I (appendLoop tr i how fuel tail q : ListM P A T Unit) := by
  induction fuel generalizing tail q with
  | zero => exact leads_undefined
  | succ fuel ih =>
    cases q with
    | none => exact keeps_pure ()
    | some q =>
      exact (hI.createNode _ _).bind fun _ => (keeps_assignTail hI.stable _).bind fun _ =>
        (keeps_modifyObject hI.stable _).bind fun _ => (keeps_fetch _).bind fun _ => ih _ _

theorem Closed.framed (hI : Closed tr I) : Framed tr True I where
  setList f := keeps_setList hI.stable f
  createNode next source _ := hI.createNode next source
  destroyNode := hI.destroyNode
  appendLoop how fuel q _ := hI.appendLoop how fuel .head q

/-- **Every operation preserves a closed invariant**, also when it throws. -/
theorem Closed.perform (hI : Closed tr I) (op : ListOp P A T) : Keeps I (op.perform tr) :=
  hI.framed.perform op fun _ => trivial

end Operations

end Doost.Lists
