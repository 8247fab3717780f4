import Doost.Foundations.Program
import Mathlib.Data.Nat.Notation
import Mathlib.Logic.Function.Basic

/-!
# The heap of a `List` and its private helpers

A `List` is a head pointer, a size and an allocator; its nodes lie in memory that the allocator
handed out. This file models that memory and the private helpers of the class: `createNode`,
`destroyNode`, `copyFrom`, `moveValuesFrom`, `stealNodesFrom` and `swapNodes`.

What the environment decides is part of the state: which calls of `allocate` and of an element's
constructor will throw, and which addresses `allocate` will return. What a constructor does to an
element that it moves from, also when it throws, is up to the type of the elements (`Traits`). Every
event on a node is logged. A loop runs at most once more than the list's `size_` says; running
longer counts as undefined, and never happens on the lists of `Represents`.
-/

namespace Doost.Lists

open Program

/-- The address of a `List` object. -/
abbrev ListId := ℕ

/-! ## Data -/

/-- A `Node`. -/
structure Node (P T : Type) where
  next : Option P
  value : T
deriving DecidableEq, Repr

/-- A `List` object: `head_`, `size_` and `allocator_`. A list has fewer than 2^64 nodes, as
they have different addresses, so that `size_` counts without wrapping. -/
structure ListObject (P A : Type) where
  head : Option P
  size : ℕ
  allocator : A
deriving DecidableEq, Repr

/-- What happens to the node at an address. -/
inductive Event (P : Type) where
  | allocate (node : P)
  | construct (node : P)
  | destroy (node : P)
  | deallocate (node : P)
deriving DecidableEq, Repr

/-- How a call can end other than by returning. A `fault` is no exception: the process ends. -/
inductive Failure where
  | badAlloc
  | element
  | outOfRange
  | fault
deriving DecidableEq, Repr

/-- `catch (...)` catches it. -/
def Failure.caught : Failure → Bool
  | .fault => false
  | _ => true

/-- `allocate` or an element's constructor threw it. -/
def Failure.thrown : Failure → Bool
  | .badAlloc => true
  | .element => true
  | _ => false

/-- All that the operations read and write. A cell holds the allocator that handed it out and, while
the node in it is alive, the node. -/
structure NodeHeap (P A T : Type) where
  lists : ListId → Option (ListObject P A)
  cells : P → Option (A × Option (Node P T))
  /-- The answers to the next calls of `allocate`; `none` is an exception. -/
  allocations : List (Option P)
  /-- Whether the next element constructors succeed. -/
  constructions : List Bool
  /-- The memory at this address can be written. -/
  accessible : P → Bool
  /-- All events so far, the latest first. -/
  log : List (Event P)

/-- What the type of the elements and the allocator's traits decide. -/
structure Traits (A T : Type) where
  /-- `operator==` of allocators. -/
  equal : A → A → Bool
  propagateOnMoveAssignment : Bool
  selectOnCopyConstruction : A → A
  /-- `get_allocator()` and the conversion back. -/
  rebind : A → A
  /-- What a move leaves in an element. -/
  movedFrom : T → T
  /-- What a move leaves in an element when its constructor throws. -/
  halfMovedFrom : T → T

/-- Where the value of a new element comes from: from arguments that are no element, or from the
element of a node, which is copied or moved from. -/
inductive Source (P T : Type) where
  | value (v : T)
  | copyOf (node : P)
  | moveFrom (node : P)
deriving DecidableEq, Repr

variable {P A T : Type} [DecidableEq P]

abbrev ListM (P A T : Type) := Program (NodeHeap P A T) Failure

namespace NodeHeap

/-- `h` with the object at `i` replaced. -/
def setList (h : NodeHeap P A T) (i : ListId) (o : Option (ListObject P A)) : NodeHeap P A T :=
  { h with lists := Function.update h.lists i o }

/-- `h` with the cell at `p` replaced. -/
def setCell (h : NodeHeap P A T) (p : P) (c : Option (A × Option (Node P T))) : NodeHeap P A T :=
  { h with cells := Function.update h.cells p c }

def record (h : NodeHeap P A T) (e : Event P) : NodeHeap P A T := { h with log := e :: h.log }

/-- The live node at `p`. -/
def node? (h : NodeHeap P A T) (p : P) : Option (Node P T) := (h.cells p).bind Prod.snd

/-- `h` with the live node at `p` changed. -/
def mapNode (h : NodeHeap P A T) (p : P) (f : Node P T → Node P T) : NodeHeap P A T :=
  { h with cells := Function.update h.cells p ((h.cells p).map fun c => (c.1, c.2.map f)) }

end NodeHeap

/-! ## Access to objects and nodes -/

def object (i : ListId) : ListM P A T (ListObject P A) := fetch fun h => h.lists i

def modifyObject (i : ListId) (f : ListObject P A → ListObject P A) : ListM P A T Unit := do
  let o ← object i
  modify fun h => h.setList i (some (f o))

def node (p : P) : ListM P A T (Node P T) := fetch fun h => h.node? p

def modifyNode (p : P) (f : Node P T → Node P T) : ListM P A T Unit := do
  let _ ← node p
  modify fun h => h.mapNode p f

def cell (p : P) : ListM P A T (A × Option (Node P T)) := fetch fun h => h.cells p

/-- Whether the memory at `p` can be written. -/
def accessible (p : P) : ListM P A T Bool := fetch fun h => some (h.accessible p)

/-! ## The allocator's functions -/

/-- `NodeTraits::allocate(a, 1)`. -/
def allocate (a : A) : ListM P A T P := fun h =>
  match h.allocations with
  | some p :: rest =>
    if (h.cells p).isSome then none
    else some (.ok p,
      ({ h with allocations := rest }.setCell p (some (a, none))).record (.allocate p))
  | none :: rest => some (.error .badAlloc, { h with allocations := rest })
  | [] => some (.error .badAlloc, h)

/-- `NodeTraits::deallocate(a, p, 1)`: of memory without a live node, from an equal allocator. -/
def deallocate (tr : Traits A T) (a : A) (p : P) : ListM P A T Unit := do
  match ← cell p with
  | (b, none) =>
    if tr.equal b a then modify fun h => (h.setCell p none).record (.deallocate p) else undefined
  | (_, some _) => undefined

/-- Whether the element's constructor, which runs now, succeeds. -/
def constructElement : ListM P A T Unit := fun h =>
  match h.constructions with
  | true :: rest => some (.ok (), { h with constructions := rest })
  | false :: rest => some (.error .element, { h with constructions := rest })
  | [] => some (.error .element, h)

/-- The value that a new element gets. -/
def Source.read : Source P T → ListM P A T T
  | .value v => return v
  | .copyOf q => do return (← node q).value
  | .moveFrom q => do return (← node q).value

/-- What the constructor does to its source: an element that it moves from becomes what `left` makes
of it. -/
def Source.leave (left : T → T) : Source P T → ListM P A T Unit
  | .value _ => return ()
  | .copyOf _ => return ()
  | .moveFrom q => modifyNode q fun n => { n with value := left n.value }

/-- The element's constructor. -/
def takeValue (tr : Traits A T) (source : Source P T) : ListM P A T T := do
  let v ← source.read
  onException Failure.caught constructElement (source.leave tr.halfMovedFrom)
  source.leave tr.movedFrom
  return v

/-- `NodeTraits::construct(allocator, p, next, args...)`: the first write goes to `p`. -/
def construct (tr : Traits A T) (p : P) (next : Option P) (source : Source P T) :
    ListM P A T Unit := do
  match ← cell p with
  | (_, some _) => undefined
  | (a, none) =>
    if ← accessible p then
      let v ← takeValue tr source
      modify fun h => (h.setCell p (some (a, some ⟨next, v⟩))).record (.construct p)
    else throw .fault

/-- `NodeTraits::destroy(allocator, p)`. -/
def destroy (p : P) : ListM P A T Unit := do
  match ← cell p with
  | (a, some _) => modify fun h => (h.setCell p (some (a, none))).record (.destroy p)
  | (_, none) => undefined

/-! ## Private helpers of `List` -/

/-- `List::create_node` of the list at `this`. -/
def createNode (tr : Traits A T) (this : ListId) (next : Option P) (source : Source P T) :
    ListM P A T P := do
  let p ← allocate (← object this).allocator
  onException Failure.caught (construct tr p next source) do
    deallocate tr (← object this).allocator p
  return p

/-- `List::destroy_node`. -/
def destroyNode (tr : Traits A T) (this : ListId) (p : P) : ListM P A T Unit := do
  destroy p
  deallocate tr (← object this).allocator p

/-- The loop of `List::clear`. -/
def clearLoop (tr : Traits A T) (this : ListId) : ℕ → ListM P A T Unit
  | 0 => undefined
  | fuel + 1 => do
    match (← object this).head with
    | none => return ()
    | some p =>
      let n ← node p
      modifyObject this fun o => { o with head := n.next }
      destroyNode tr this p
      clearLoop tr this fuel

/-- `List::clear`. -/
def clear (tr : Traits A T) (this : ListId) : ListM P A T Unit := do
  clearLoop tr this ((← object this).size + 1)
  modifyObject this fun o => { o with size := 0 }

/-- `Node** tail`: the head of a list or the link of a node. -/
inductive Tail (P : Type) where
  | head
  | next (node : P)
deriving DecidableEq, Repr

/-- `*tail = p`. -/
def assignTail (this : ListId) (tail : Tail P) (p : P) : ListM P A T Unit :=
  match tail with
  | .head => modifyObject this fun o => { o with head := some p }
  | .next q => modifyNode q fun n => { n with next := some p }

/-- What `copy_from` and `move_values_from` do with an element. -/
inductive Transfer where
  | copy
  | move
deriving DecidableEq, Repr

def Transfer.source : Transfer → P → Source P T
  | .copy => .copyOf
  | .move => .moveFrom

/-- The loop of `List::copy_from` and `List::move_values_from`. -/
def appendLoop (tr : Traits A T) (this : ListId) (how : Transfer) :
    ℕ → Tail P → Option P → ListM P A T Unit
  | 0, _, _ => undefined
  | _ + 1, _, none => return ()
  | fuel + 1, tail, some q => do
    let copy ← createNode tr this none (how.source q)
    assignTail this tail copy
    modifyObject this fun o => { o with size := o.size + 1 }
    appendLoop tr this how fuel (.next copy) (← node q).next

/-- The body of `List::copy_from` and `List::move_values_from`. -/
def appendFrom (tr : Traits A T) (this other : ListId) (how : Transfer) : ListM P A T Unit := do
  let o ← object other
  onException Failure.caught (appendLoop tr this how (o.size + 1) .head o.head) (clear tr this)

/-- `List::copy_from`. -/
def copyFrom (tr : Traits A T) (this other : ListId) : ListM P A T Unit :=
  appendFrom tr this other .copy

/-- `List::move_values_from`. -/
def moveValuesFrom (tr : Traits A T) (this other : ListId) : ListM P A T Unit :=
  appendFrom tr this other .move

/-- `List::steal_nodes_from`. -/
def stealNodesFrom (this other : ListId) : ListM P A T Unit := do
  let o ← object other
  modifyObject other fun o => { o with head := none }
  modifyObject this fun t => { t with head := o.head }
  modifyObject other fun o => { o with size := 0 }
  modifyObject this fun t => { t with size := o.size }

/-- `List::swap_nodes`. -/
def swapNodes (this other : ListId) : ListM P A T Unit := do
  let t ← object this
  let o ← object other
  modifyObject this fun t => { t with head := o.head, size := o.size }
  modifyObject other fun o => { o with head := t.head, size := t.size }

end Doost.Lists
