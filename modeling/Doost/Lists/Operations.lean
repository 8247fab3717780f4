import Doost.Foundations.Transition
import Doost.Lists.NodeHeap

/-!
# The operations of `List`

The constructors, assignments and modifiers of `List` over the private helpers, what the iterators
and observers return, and runs of calls by a program that follows the rules of the language. A call
carries what `allocate` and the elements' constructors will answer while it runs.
-/

namespace Doost.Lists

open Program

variable {P A T : Type} [DecidableEq P]

/-! ## Constructors and the destructor -/

/-- `List()` and `List(const Allocator&)`: `head_` is null and `size_` is 0. -/
def newList (this : ListId) (allocator : A) : ListM P A T Unit :=
  modify fun h => h.setList this (some ⟨none, 0, allocator⟩)

/-- The memory of the object at `this` is used for something else. -/
def forgetList (this : ListId) : ListM P A T Unit := modify fun h => h.setList this none

/-- `List(const List&, const Allocator&)`. Without a finished constructor there is no object and
no destructor call. -/
def copyConstructWith (tr : Traits A T) (this other : ListId) (allocator : A) :
    ListM P A T Unit := do
  newList this allocator
  onException Failure.caught (copyFrom tr this other) (forgetList this)

/-- `List(const List&)`. -/
def copyConstruct (tr : Traits A T) (this other : ListId) : ListM P A T Unit := do
  copyConstructWith tr this other (tr.selectOnCopyConstruction (← object other).allocator)

/-- `List(List&&)`. -/
def moveConstruct (this other : ListId) : ListM P A T Unit := do
  let o ← object other
  modifyObject other fun o => { o with head := none, size := 0 }
  modify fun h => h.setList this (some o)

/-- `~List()`. -/
def destroyList (tr : Traits A T) (this : ListId) : ListM P A T Unit := do
  clear tr this
  forgetList this

/-! ## Assignments -/

/-- `operator=(const List&)`, with the local list at `copy`. -/
def copyAssign (tr : Traits A T) (this other copy : ListId) : ListM P A T Unit := do
  if this = other then return ()
  copyConstructWith tr copy other (tr.rebind (← object this).allocator)
  swapNodes this copy
  destroyList tr copy

/-- The branch of `operator=(List&&)` for allocators that may not free each other's nodes, with the
local list at `moved`. -/
def moveElements (tr : Traits A T) (this other moved : ListId) : ListM P A T Unit := do
  newList moved (tr.rebind (← object this).allocator)
  onException Failure.caught (moveValuesFrom tr moved other) (destroyList tr moved)
  clear tr this
  swapNodes this moved
  clear tr other
  destroyList tr moved

/-- `operator=(List&&)`. -/
def moveAssign (tr : Traits A T) (this other moved : ListId) : ListM P A T Unit := do
  if this = other then return ()
  if tr.propagateOnMoveAssignment then
    clear tr this
    let o ← object other
    modifyObject this fun t => { t with allocator := o.allocator }
    stealNodesFrom this other
  else if tr.equal (← object this).allocator (← object other).allocator then
    clear tr this
    stealNodesFrom this other
  else moveElements tr this other moved

/-! ## Modifiers -/

/-- `head_->value`, as the node it belongs to. -/
def front (this : ListId) : ListM P A T P := do
  match (← object this).head with
  | some p => return p
  | none => undefined

/-- `List::emplace_front`. -/
def emplaceFront (tr : Traits A T) (this : ListId) (source : Source P T) : ListM P A T P := do
  let head ← createNode tr this (← object this).head source
  modifyObject this fun o => { o with head := some head }
  modifyObject this fun o => { o with size := o.size + 1 }
  front this

/-- `List::push_front`. -/
def pushFront (tr : Traits A T) (this : ListId) (source : Source P T) : ListM P A T Unit := do
  let _ ← emplaceFront tr this source

/-- `List::pop_front`. -/
def popFront (tr : Traits A T) (this : ListId) : ListM P A T Unit := do
  match (← object this).head with
  | none => throw .outOfRange
  | some oldHead =>
    let n ← node oldHead
    modifyObject this fun o => { o with head := n.next }
    modifyObject this fun o => { o with size := o.size - 1 }
    destroyNode tr this oldHead

/-- `List::release_nodes`. -/
def releaseNodes (this : ListId) : ListM P A T Unit :=
  modifyObject this fun o => { o with head := none, size := 0 }

/-! ## Observers -/

namespace NodeHeap

/-- `List::size`. -/
def size (h : NodeHeap P A T) (i : ListId) : Option ℕ := (h.lists i).map ListObject.size

/-- `List::empty`. -/
def empty (h : NodeHeap P A T) (i : ListId) : Option Bool :=
  (h.lists i).map fun o => o.head.isNone

/-- What an iterator visits from `it` on until it equals `end()`, in at most `fuel` steps. -/
def iterate (h : NodeHeap P A T) : ℕ → Option P → Option (List (P × T))
  | _, none => some []
  | 0, some _ => none
  | fuel + 1, some p => do
    let n ← h.node? p
    return (p, n.value) :: (← h.iterate fuel n.next)

/-- What an iterator visits from `begin()` to `end()`: the nodes with their elements. -/
def elements (h : NodeHeap P A T) (i : ListId) : Option (List (P × T)) := do
  let o ← h.lists i
  h.iterate o.size o.head

end NodeHeap

/-! ## Runs -/

/-- The calls. Where a new element is made from an element of a list, `owner` is that list. -/
inductive ListOp (P A T : Type) where
  | construct (this : ListId) (allocator : A)
  | copyConstruct (this other : ListId)
  | copyConstructWith (this other : ListId) (allocator : A)
  | moveConstruct (this other : ListId)
  | copyAssign (this other copy : ListId)
  | moveAssign (this other moved : ListId)
  | emplaceFront (this : ListId) (source : Source P T) (owner : ListId)
  | pushFront (this : ListId) (source : Source P T) (owner : ListId)
  | popFront (this : ListId)
  | clear (this : ListId)
  | releaseNodes (this : ListId)
  | destroy (this : ListId)
deriving DecidableEq, Repr

/-- A call, with the answers of `allocate` and of the elements' constructors. -/
structure Call (P A T : Type) where
  op : ListOp P A T
  allocations : List (Option P)
  constructions : List Bool

def ListOp.perform (tr : Traits A T) : ListOp P A T → ListM P A T Unit
  | .construct this allocator => newList this allocator
  | .copyConstruct this other => Lists.copyConstruct tr this other
  | .copyConstructWith this other allocator => Lists.copyConstructWith tr this other allocator
  | .moveConstruct this other => Lists.moveConstruct this other
  | .copyAssign this other copy => Lists.copyAssign tr this other copy
  | .moveAssign this other moved => Lists.moveAssign tr this other moved
  | .emplaceFront this source _ => do let _ ← Lists.emplaceFront tr this source
  | .pushFront this source _ => Lists.pushFront tr this source
  | .popFront this => Lists.popFront tr this
  | .clear this => Lists.clear tr this
  | .releaseNodes this => Lists.releaseNodes this
  | .destroy this => destroyList tr this

namespace NodeHeap

/-- An element that a new one is made from belongs to the list at `owner`. -/
def acceptsSource (h : NodeHeap P A T) (owner : ListId) : Source P T → Bool
  | .value _ => true
  | .copyOf q => (h.elements owner).any fun l => q ∈ l.map Prod.fst
  | .moveFrom q => (h.elements owner).any fun l => q ∈ l.map Prod.fst

/-- The calls that a program may make: constructors and local objects get unused addresses, the
other operations existing objects. -/
def acceptsOp (h : NodeHeap P A T) : ListOp P A T → Bool
  | .construct this _ => (h.lists this).isNone
  | .copyConstruct this other => (h.lists this).isNone && (h.lists other).isSome
  | .copyConstructWith this other _ => (h.lists this).isNone && (h.lists other).isSome
  | .moveConstruct this other => (h.lists this).isNone && (h.lists other).isSome
  | .copyAssign this other copy =>
    (h.lists this).isSome && (h.lists other).isSome && (h.lists copy).isNone
  | .moveAssign this other moved =>
    (h.lists this).isSome && (h.lists other).isSome && (h.lists moved).isNone
  | .emplaceFront this source owner => (h.lists this).isSome && h.acceptsSource owner source
  | .pushFront this source owner => (h.lists this).isSome && h.acceptsSource owner source
  | .popFront this => (h.lists this).isSome
  | .clear this => (h.lists this).isSome
  | .releaseNodes this => (h.lists this).isSome
  | .destroy this => (h.lists this).isSome

/-- What `allocate` may return: different addresses of free, accessible memory. No call allocates
after it has deallocated, so that the cells before the call decide. -/
def mayReturn (h : NodeHeap P A T) (allocations : List (Option P)) : Bool :=
  (allocations.filterMap id).all (fun p => (h.cells p).isNone && h.accessible p) &&
    decide (allocations.filterMap id).Nodup

def legal (h : NodeHeap P A T) (c : Call P A T) : Bool :=
  h.acceptsOp c.op && h.mayReturn c.allocations

/-- The heap when the call starts. -/
def answering (h : NodeHeap P A T) (c : Call P A T) : NodeHeap P A T :=
  { h with allocations := c.allocations, constructions := c.constructions }

def perform (tr : Traits A T) (h : NodeHeap P A T) (c : Call P A T) :
    Option (Except Failure Unit × NodeHeap P A T) :=
  c.op.perform tr (h.answering c)

/-- One legal call. -/
def next (tr : Traits A T) (h : NodeHeap P A T) (c : Call P A T) : Option (NodeHeap P A T) :=
  if h.legal c then (h.perform tr c).map Prod.snd else none

/-- No list and no node. -/
def start (accessible : P → Bool) : NodeHeap P A T :=
  ⟨fun _ => none, fun _ => none, [], [], accessible, []⟩

end NodeHeap

end Doost.Lists
