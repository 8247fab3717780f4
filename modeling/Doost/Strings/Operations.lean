import Doost.Foundations.Transition
import Doost.Strings.Heap

/-!
# The operations of `String`

The constructors, the assignments, `reset`, `swap` and the destructor, as functions on the heap,
and `Heap.next`, the system whose labels are calls of them. An operation that can throw
`std::bad_alloc` ends in `.ok h` or in `.error h`, with the heap at that point.
-/

namespace Doost.Strings

/-- A text argument: a `const char*`, a `std::string_view` or a `std::string`. -/
inductive Text where
  | cString (value : Option Heap.CharPtr)
  | view (data : Option Heap.CharPtr) (size : SizeT)
  | string (bytes : List UInt8)
deriving DecidableEq, Repr

/-- A call of an operation, with the addresses that its environment picks: `storage` is what
`new` returns (`none` when it throws), and `replacement` is where the temporary lives. -/
inductive StringOp where
  | defaultConstruct (this : ObjectId)
  | constructText (this : ObjectId) (text : Text) (storage : Option UIntPtr)
  | copyConstruct (this other : ObjectId)
  | moveConstruct (this other : ObjectId)
  | assignText (this : ObjectId) (text : Text) (replacement : ObjectId) (storage : Option UIntPtr)
  | copyAssign (this other : ObjectId)
  | moveAssign (this other : ObjectId)
  | reset (this : ObjectId)
  | swap (this other : ObjectId)
  | freeSwap (lhs rhs : ObjectId)
  | destroy (this : ObjectId)
  | setDebugTrace (stream : Option StreamId)
deriving DecidableEq, Repr

namespace Heap

/-! ## Constructors and the destructor -/

/-- The member initialisers of a `String` at `this`, and all of `String()`. -/
def construct (h : Heap) (this : ObjectId) : Heap :=
  { h with strings := Function.update h.strings this (some .null) }

/-- The storage at `this` holds no `String` any more. -/
def endLifetime (h : Heap) (this : ObjectId) : Heap :=
  { h with strings := Function.update h.strings this none }

/-- The constructors that run `attach(make_block(value, length))`. -/
def constructChars (h : Heap) (this : ObjectId) (value : Option CharPtr) (length : SizeT)
    (storage : Option UIntPtr) : Option (Except Heap Heap) := do
  match ← (h.construct this).makeBlock value length storage with
  | .error h => return .error (h.endLifetime this)
  | .ok (block, h) => return .ok (← h.attach this block)

/-- `String(const char*)`. -/
def constructCString (h : Heap) (this : ObjectId) (value : Option CharPtr)
    (storage : Option UIntPtr) : Option (Except Heap Heap) :=
  match value with
  | none => some (.ok (h.construct this))
  | some value => do
    let length ← strlen (← h.charsFrom value)
    h.constructChars this (some value) length storage

/-- `String(std::string_view)`. -/
def constructView (h : Heap) (this : ObjectId) (data : Option CharPtr) (size : SizeT)
    (storage : Option UIntPtr) : Option (Except Heap Heap) :=
  h.constructChars this data size storage

/-- The array of a `std::string`, which `data()` points to. -/
def stringData (bytes : List UInt8) : CharPtr := .outside (bytes ++ [0])

/-- `String(const std::string&)`. -/
def constructString (h : Heap) (this : ObjectId) (bytes : List UInt8)
    (storage : Option UIntPtr) : Option (Except Heap Heap) :=
  h.constructChars this (some (stringData bytes)) (BitVec.ofNat 64 bytes.length) storage

/-- The constructor that takes `text`. -/
def constructText (h : Heap) (this : ObjectId) (text : Text) (storage : Option UIntPtr) :
    Option (Except Heap Heap) :=
  match text with
  | .cString value => h.constructCString this value storage
  | .view data size => h.constructView this data size storage
  | .string bytes => h.constructString this bytes storage

/-- `String(const String&)`. -/
def copyConstruct (h : Heap) (this other : ObjectId) : Option Heap := do
  let h := h.construct this
  h.attach this (← h.strings other).block.pointer

/-- `String(String&&)`. -/
def moveConstruct (h : Heap) (this other : ObjectId) : Option Heap :=
  (h.construct this).moveFrom this other

/-- `~String()`. -/
def destroy (h : Heap) (this : ObjectId) : Option Heap := do
  let h ← h.detach this
  return h.endLifetime this

/-! ## Assignments -/

/-- `reset()`. -/
def reset (h : Heap) (this : ObjectId) : Option Heap := h.detach this

/-- The end of a text assignment: swap with the temporary `replacement`, which then goes. -/
def replaceWith (h : Heap) (this replacement : ObjectId) : Option Heap := do
  let h ← h.swap this replacement
  h.destroy replacement

/-- `operator=(std::string_view)`. -/
def assignView (h : Heap) (this : ObjectId) (data : Option CharPtr) (size : SizeT)
    (replacement : ObjectId) (storage : Option UIntPtr) : Option (Except Heap Heap) := do
  match ← h.constructView replacement data size storage with
  | .error h => return .error h
  | .ok h => return .ok (← h.replaceWith this replacement)

/-- `operator=(const char*)`. -/
def assignCString (h : Heap) (this : ObjectId) (value : Option CharPtr)
    (replacement : ObjectId) (storage : Option UIntPtr) : Option (Except Heap Heap) :=
  match value with
  | none => do return .ok (← h.reset this)
  | some value => do
    match ← h.constructCString replacement (some value) storage with
    | .error h => return .error h
    | .ok h => return .ok (← h.replaceWith this replacement)

/-- `operator=(const std::string&)`. -/
def assignString (h : Heap) (this : ObjectId) (bytes : List UInt8)
    (replacement : ObjectId) (storage : Option UIntPtr) : Option (Except Heap Heap) :=
  h.assignView this (some (stringData bytes)) (BitVec.ofNat 64 bytes.length) replacement storage

/-- The assignment that takes `text`. -/
def assignText (h : Heap) (this : ObjectId) (text : Text) (replacement : ObjectId)
    (storage : Option UIntPtr) : Option (Except Heap Heap) :=
  match text with
  | .cString value => h.assignCString this value replacement storage
  | .view data size => h.assignView this data size replacement storage
  | .string bytes => h.assignString this bytes replacement storage

/-- `operator=(const String&)`. -/
def copyAssign (h : Heap) (this other : ObjectId) : Option Heap := do
  if this = other then return h
  if (← h.strings this).block.pointer = (← h.strings other).block.pointer then return h
  let newBlock := (← h.strings other).block.pointer
  let h ← h.detach this
  h.attach this newBlock

/-- `operator=(String&&)`. -/
def moveAssign (h : Heap) (this other : ObjectId) : Option Heap := do
  if this = other then return h
  let h ← h.detach this
  h.moveFrom this other

/-- `String::set_debug_trace`. -/
def setDebugTrace (h : Heap) (stream : Option StreamId) : Heap :=
  { h with trace := { h.trace with stream := stream } }

/-! ## Observers -/

def hasValue (h : Heap) (x : ObjectId) : Option Bool := do
  return (← h.strings x).block.pointer != 0

def unique (h : Heap) (x : ObjectId) : Option Bool := do
  let s ← h.strings x
  return s.block.pointer != 0 && s.block.unique

/-- The characters that `c_str()` points to. -/
def cStr (h : Heap) (x : ObjectId) : Option (List UInt8) := do
  let s ← h.strings x
  if s.block.pointer = 0 then return [0]
  return (← h.blocks s.block.pointer).data

/-! ## Runs -/

def perform (h : Heap) : StringOp → Option (Except Heap Heap)
  | .defaultConstruct this => some (.ok (h.construct this))
  | .constructText this text storage => h.constructText this text storage
  | .copyConstruct this other => (h.copyConstruct this other).map .ok
  | .moveConstruct this other => (h.moveConstruct this other).map .ok
  | .assignText this text replacement storage => h.assignText this text replacement storage
  | .copyAssign this other => (h.copyAssign this other).map .ok
  | .moveAssign this other => (h.moveAssign this other).map .ok
  | .reset this => (h.reset this).map .ok
  | .swap this other => (h.swap this other).map .ok
  | .freeSwap lhs rhs => (h.swap lhs rhs).map .ok
  | .destroy this => (h.destroy this).map .ok
  | .setDebugTrace stream => some (.ok (h.setDebugTrace stream))

/-- An array that is no block has fewer than 2^63 characters, as every object has. -/
def CharPtr.isArray : CharPtr → Bool
  | .outside bytes => bytes.length < 2 ^ 63
  | .inside _ _ => true

/-- `new char[bytes]` throws, or returns the even address of a new array. -/
def mayReturn (h : Heap) (bytes : SizeT) : Option UIntPtr → Bool
  | none => true
  | some block => block != 0 && block.toNat % 2 == 0 && (h.blocks block).isNone &&
      bytes.toNat < 2 ^ 63

/-- The characters that `text` stands for in `h`. A null pointer stands for none, and so does a
pointer from which they cannot be read. -/
def chars (h : Heap) : Text → Option (List UInt8)
  | .cString value => do
    let c ← h.charsFrom (← value)
    if 0 ∈ c then some (cText c) else none
  | .view data size => h.readChars data size
  | .string bytes => some bytes

/-- `text` can be read, and `storage` is an answer of `new` to the request for it. -/
def acceptsText (h : Heap) (storage : Option UIntPtr) : Text → Bool
  | .cString none => true
  | .cString (some value) => value.isArray && (h.chars (.cString (some value))).any fun c =>
      h.mayReturn (blockBytes (BitVec.ofNat 64 c.length)) storage
  | .view data size => data.all CharPtr.isArray && (h.readChars data size).isSome &&
      h.mayReturn (blockBytes size) storage
  | .string bytes => (stringData bytes).isArray &&
      h.mayReturn (blockBytes (BitVec.ofNat 64 bytes.length)) storage

/-- The calls that a program may make: constructors get unused addresses, the other operations
existing objects, and texts are readable. -/
def legal (h : Heap) : StringOp → Bool
  | .defaultConstruct this => (h.strings this).isNone
  | .constructText this text storage => (h.strings this).isNone && h.acceptsText storage text
  | .copyConstruct this other => (h.strings this).isNone && (h.strings other).isSome
  | .moveConstruct this other => (h.strings this).isNone && (h.strings other).isSome
  | .assignText this text replacement storage => (h.strings this).isSome &&
      (h.strings replacement).isNone && h.acceptsText storage text
  | .copyAssign this other => (h.strings this).isSome && (h.strings other).isSome
  | .moveAssign this other => (h.strings this).isSome && (h.strings other).isSome
  | .reset this => (h.strings this).isSome
  | .swap this other => (h.strings this).isSome && (h.strings other).isSome
  | .freeSwap lhs rhs => (h.strings lhs).isSome && (h.strings rhs).isSome
  | .destroy this => (h.strings this).isSome
  | .setDebugTrace _ => true

/-- The heap that an operation leaves, also when it throws. -/
def after : Except Heap Heap → Heap
  | .ok h => h
  | .error h => h

/-- One legal call. -/
def next (h : Heap) (op : StringOp) : Option Heap :=
  if h.legal op then (h.perform op).map after else none

/-- The heap of a program that has not made a `String` yet. -/
def start (t : DebugTrace) : Heap := ⟨fun _ => none, fun _ => none, t⟩

end Heap

end Doost.Strings
